import Obsd.SemRange

/-!
# Sleepers and wakeups

A process that cannot apply its vector sleeps, counted on the one operation
that stopped it. `sys_semop` wakes the sleepers of a set only when a value
rises with someone counted in `semncnt`, or reaches 0 with someone counted in
`semzcnt`. Whether that is enough depends on the vectors: `Waits` says why a
sleeper that no wakeup has reached still cannot go on, and every step keeps
it, provided that no operation before a wait for 0 lowers the same semaphore,
that numbers are in range and values do not overflow (`WakeGuard`).

The same guard has the memory of a removed set go to the next set of its
slot while processes sleep on it: `sys_semop` compares the sequence number
it finds in that memory.
-/

namespace Obsd.Semop

/-! ## When no wakeup is due -/

/-- A pass that asks for no wakeup raises no semaphore on which someone waits for more, and
takes no semaphore to 0 on which someone waits for that. -/
theorem scan_no_wakeup {nsems : Nat} (ops : List Sembuf) :
    ∀ {i : Nat} {st st' : State} {w u u' : Bool},
    scan nsems ops i st w u = .through st' false u' → w = false ∧ ∀ k op, ops[k]? = some op →
      (0 < op.semOp.toInt → st.semncnt op.semNum.toNat = 0#16) ∧
      (op.semOp.toInt < 0 → st.semval op.semNum.toNat + delta op.semNum.toNat (ops.take (k + 1)) = 0#16 →
        st.semzcnt op.semNum.toNat = 0#16) := by
  induction ops with
  | nil =>
      intro i st st' w u u' h
      injection h with _ hw _
      exact ⟨hw, fun k op hop => by cases hop⟩
  | cons op ops ih =>
      intro i st st' w u u' h
      -- the rest of the vector, seen from the values before the first operation
      have hrest : ∀ (st₁ : State) {w₁ u₁ : Bool}, st₁.semncnt = st.semncnt →
          st₁.semzcnt = st.semzcnt →
          (∀ n, st₁.semval n = st.semval n + if op.semNum.toNat = n then op.semOp else 0#16) →
          scan nsems ops (i + 1) st₁ w₁ u₁ = .through st' false u' →
          w₁ = false ∧ ∀ k op', ops[k]? = some op' →
            (0 < op'.semOp.toInt → st.semncnt op'.semNum.toNat = 0#16) ∧
            (op'.semOp.toInt < 0 → st.semval op'.semNum.toNat +
              delta op'.semNum.toNat ((op :: ops).take (k + 1 + 1)) = 0#16 →
              st.semzcnt op'.semNum.toNat = 0#16) := by
        intro st₁ w₁ u₁ hn hz hv hscan
        obtain ⟨hw, hall⟩ := ih hscan
        refine ⟨hw, fun k op' hop' => ?_⟩
        obtain ⟨h1, h2⟩ := hall k op' hop'
        rw [hn] at h1
        rw [hz, hv] at h2
        refine ⟨h1, fun hneg h0 => h2 hneg ?_⟩
        rw [BitVec.add_assoc]
        exact h0
      have hadd (n : Nat) : (addVal st op.semNum.toNat op.semOp).semval n =
          st.semval n + if op.semNum.toNat = n then op.semOp else 0#16 := by
        simp only [addVal, Function.update_apply]
        by_cases hn : n = op.semNum.toNat
        · subst hn
          rw [if_pos rfl, if_pos rfl]
        · rw [if_neg hn, if_neg (Ne.symm hn), BitVec.add_zero]
      have hone : delta op.semNum.toNat ((op :: ops).take (0 + 1)) = op.semOp := by
        rw [List.take_succ_cons, List.take_zero, delta, if_pos rfl, delta, BitVec.add_zero]
      rw [scan] at h
      split at h
      · cases h
      split at h
      · rename_i hneg
        split at h
        · cases h
        · obtain ⟨hw, hall⟩ := hrest (addVal st op.semNum.toNat op.semOp) rfl rfl hadd h
          rw [Bool.or_eq_false_iff] at hw
          refine ⟨hw.1, fun k op' hop' => ?_⟩
          cases k with
          | succ k => exact hall k op' hop'
          | zero =>
              obtain rfl := Option.some.inj hop'
              refine ⟨fun hpos => absurd hneg (by omega), fun _ h0 => ?_⟩
              rw [hone] at h0
              have hval : (addVal st op.semNum.toNat op.semOp).semval op.semNum.toNat = 0#16 := by
                rw [hadd, if_pos rfl]
                exact h0
              have hz := hw.2
              rw [Bool.and_eq_false_iff, decide_eq_false_iff_not, decide_eq_false_iff_not] at hz
              rcases hz with hz | hz
              · exact absurd hval hz
              · apply BitVec.eq_of_toNat_eq
                exact Nat.le_zero.mp (Nat.le_of_not_lt hz)
      split at h
      · rename_i hneg hzero
        split at h
        · cases h
        · have hsame (n : Nat) : st.semval n =
              st.semval n + if op.semNum.toNat = n then op.semOp else 0#16 := by
            rw [hzero]
            split <;> exact (BitVec.add_zero _).symm
          obtain ⟨hw, hall⟩ := hrest st rfl rfl hsame h
          refine ⟨hw, fun k op' hop' => ?_⟩
          cases k with
          | succ k => exact hall k op' hop'
          | zero =>
              obtain rfl := Option.some.inj hop'
              rw [hzero]
              exact ⟨fun hpos => absurd hpos (by decide), fun hlt => absurd hlt (by decide)⟩
      · rename_i hneg hzero
        obtain ⟨hw, hall⟩ := hrest (addVal st op.semNum.toNat op.semOp) rfl rfl hadd h
        rw [Bool.or_eq_false_iff] at hw
        refine ⟨hw.1, fun k op' hop' => ?_⟩
        cases k with
        | succ k => exact hall k op' hop'
        | zero =>
            obtain rfl := Option.some.inj hop'
            refine ⟨fun _ => ?_, fun hlt => absurd hlt hneg⟩
            apply BitVec.eq_of_toNat_eq
            exact Nat.le_zero.mp (Nat.le_of_not_lt (of_decide_eq_false hw.2))

/-! ## Why a sleeper cannot go on -/

/-- The operation at `k` stops the vector, whatever values other semaphores have: there is
not enough to take, or the semaphore does not come to 0. -/
structure Stops (v : BitVec 16) (sops : List Sembuf) (k : Nat) (op : Sembuf) : Prop where
  at_k : sops[k]? = some op
  why : (op.semOp.toInt < 0 ∧
      (v.toNat : Int) + intDelta op.semNum.toNat (sops.take k) + op.semOp.toInt < 0 ∧
      ∀ j ≤ k, (v.toNat : Int) + intDelta op.semNum.toNat (sops.take j) ≤ semvmx) ∨
    (op.semOp = 0#16 ∧ 0 ≤ intDelta op.semNum.toNat (sops.take k) ∧
      intDelta op.semNum.toNat (sops.take k) ≤ semvmx ∧
      0 < (v.toNat : Int) + intDelta op.semNum.toNat (sops.take k))

def Waits (m : Semid) (p : Sleeper) : Prop :=
  ∃ k, Stops (m.semval p.sopptr.semNum.toNat) p.sops k p.sopptr

theorem Waits.not_applies {m : Semid} {p : Sleeper} (h : Waits m p)
    (hb : ((m.semval p.sopptr.semNum.toNat).toNat : Int) ≤ semvmx) :
    ¬Applies m.nsems m.semval p.sops := by
  obtain ⟨k, hk, hwhy⟩ := h
  intro happ
  have hgoes := happ k p.sopptr hk
  rcases hwhy with ⟨hneg, hlow, hsafe⟩ | ⟨hz, h0, hle, hpos⟩
  · have hval := (happ.take k).exact (n := p.sopptr.semNum.toNat) k hsafe
    have := hgoes.down hneg
    omega
  · have hval := hgoes.zero hz
    have hsmall : semvmx = 32767 := rfl
    rw [delta_eq_ofInt] at hval
    obtain ⟨d, hd⟩ := Int.eq_ofNat_of_zero_le h0
    rw [hd, BitVec.ofInt_natCast] at hval
    have hnat := congrArg BitVec.toNat hval
    rw [BitVec.toNat_add, BitVec.toNat_ofNat, BitVec.toNat_ofNat] at hnat
    omega

/-- The vector a process comes to sleep with. -/
def VectorFits (m : Semid) (sops : List Sembuf) : Prop :=
  (∀ op ∈ sops, op.semNum.toNat < m.nsems) ∧ Bounded m.nsems m.semval sops ∧
    ∀ k op, sops[k]? = some op → op.semOp = 0#16 → 0 ≤ intDelta op.semNum.toNat (sops.take k)

/-- Where a pass stops, the vector is stopped. -/
theorem stops_of_blocked {m : Semid} {sops : List Sembuf} {k : Nat} {op : Sembuf}
    (hfit : VectorFits m sops) (hop : sops[k]? = some op) (hin : op.semNum.toNat < m.nsems)
    (happ : Applies m.nsems m.semval (sops.take k))
    (hno : ¬Goes m.nsems (m.semval op.semNum.toNat + delta op.semNum.toNat (sops.take k)) op) :
    Stops (m.semval op.semNum.toNat) sops k op := by
  obtain ⟨-, hb, hzero⟩ := hfit
  have hval := hb.exact k op.semNum.toNat happ
  have hsafe : ∀ j ≤ k, ((m.semval op.semNum.toNat).toNat : Int) +
      intDelta op.semNum.toNat (sops.take j) ≤ semvmx := by
    intro j hj
    refine hb j op.semNum.toNat ?_
    have h := happ.take j
    rwa [List.take_take, Nat.min_eq_left hj] at h
  refine ⟨hop, ?_⟩
  by_cases hneg : op.semOp.toInt < 0
  · refine .inl ⟨hneg, ?_, hsafe⟩
    by_contra hge
    refine hno ⟨hin, fun _ => by omega, fun hz => ?_⟩
    rw [hz] at hneg
    exact absurd hneg (by decide)
  by_cases hz : op.semOp = 0#16
  · have h0 := hzero k op hop hz
    refine .inr ⟨hz, h0, ?_, ?_⟩
    · have := hsafe k (Nat.le_refl k)
      omega
    · by_contra hle
      refine hno ⟨hin, fun h => absurd h hneg, fun _ => ?_⟩
      apply BitVec.eq_of_toNat_eq
      rw [BitVec.toNat_ofNat, Nat.zero_mod]
      omega
  · exact absurd ⟨hin, fun h => absurd h hneg, fun h => absurd h hz⟩ hno

/-- A pass that goes through without a wakeup leaves a sleeper that is counted where it was. -/
theorem Stops.of_pass {m : Semid} {us : Undos} {sops : List Sembuf} {u : Bool}
    {sops' : List Sembuf} {k : Nat} {op : Sembuf}
    (hfit : VectorFits m sops) (happ : Applies m.nsems m.semval sops)
    (hscan : scan m.nsems sops 0 (m.load us) false false = .through ((m.load us).plus sops) false u)
    (hncnt : op.semOp ≠ 0#16 → m.semncnt op.semNum.toNat ≠ 0#16)
    (hzcnt : op.semOp = 0#16 → m.semzcnt op.semNum.toNat ≠ 0#16)
    (h : Stops (m.semval op.semNum.toNat) sops' k op) :
    Stops (m.semval op.semNum.toNat + delta op.semNum.toNat sops) sops' k op := by
  obtain ⟨-, hwake⟩ := scan_no_wakeup sops hscan
  obtain ⟨-, hb, -⟩ := hfit
  generalize hn : op.semNum.toNat = n at *
  have hexact (j : Nat) := hb.exact j n (happ.take j)
  have hfull : ((m.semval n + delta n sops).toNat : Int) = (m.semval n).toNat + intDelta n sops := by
    have := hexact sops.length
    rwa [List.take_length] at this
  refine ⟨h.at_k, ?_⟩
  rw [hn]
  have hwhy := h.why
  rw [hn] at hwhy
  rcases hwhy with ⟨hneg, hlow, hsafe⟩ | ⟨hz, h0, hle, hpos⟩
  · -- nothing was added to the semaphore
    have hnz : op.semOp ≠ 0#16 := by
      intro hz
      rw [hz] at hneg
      exact absurd hneg (by decide)
    have hdown : ∀ ops : List Sembuf, (∀ op' ∈ ops, op' ∈ sops) → intDelta n ops ≤ 0 := by
      intro ops
      induction ops with
      | nil => exact fun _ => Int.le_refl _
      | cons op' ops ih =>
          intro hsub
          have hrest := ih fun x hx => hsub x (List.mem_cons_of_mem _ hx)
          obtain ⟨j, hj⟩ := List.getElem?_of_mem (hsub op' List.mem_cons_self)
          rw [intDelta]
          split
          · rename_i hn'
            have hle : ¬0 < op'.semOp.toInt := by
              intro hpos
              have := (hwake j op' hj).1 hpos
              rw [hn'] at this
              exact hncnt hnz this
            omega
          · omega
    have hle := hdown sops fun _ hx => hx
    refine .inl ⟨hneg, by omega, fun j hj => ?_⟩
    have := hsafe j hj
    omega
  · refine .inr ⟨hz, h0, hle, ?_⟩
    by_cases hd : 0 < intDelta n (sops'.take k)
    · omega
    · -- the semaphore was not 0 and is never taken to 0
      have hkeep : ∀ j, 0 < ((m.semval n).toNat : Int) + intDelta n (sops.take j) := by
        intro j
        induction j with
        | zero =>
            rw [List.take_zero, intDelta]
            omega
        | succ j ih =>
            cases hop : sops[j]? with
            | none =>
                have hlen := List.getElem?_eq_none_iff.mp hop
                rwa [List.take_of_length_le (by omega), ← List.take_of_length_le hlen]
            | some op' =>
                have hsum : intDelta n (sops.take (j + 1)) = intDelta n (sops.take j) +
                    if op'.semNum.toNat = n then op'.semOp.toInt else 0 := by
                  rw [List.take_add_one, hop, intDelta_append]
                  simp [intDelta]
                rw [hsum]
                split
                · rename_i hn'
                  by_cases hneg' : op'.semOp.toInt < 0
                  · by_contra hle'
                    have hnext := hexact (j + 1)
                    have hzero : m.semval n + delta n (sops.take (j + 1)) = 0#16 := by
                      apply BitVec.eq_of_toNat_eq
                      rw [BitVec.toNat_ofNat, Nat.zero_mod]
                      omega
                    have := (hwake j op' hop).2 hneg' (by rw [hn']; exact hzero)
                    rw [hn'] at this
                    exact hzcnt hz this
                  · omega
                · omega
      have := hkeep sops.length
      rw [List.take_length] at this
      omega

/-! ## The guard -/

/-- What the undo entries of a process add to a semaphore at most. -/
def raise (ix n : Nat) : List Undo → Int
  | [] => 0
  | u :: ent => (if u.unId.toNat = ix ∧ u.unNum.toInt.toNat = n then max 0 u.unAdjval.toInt else 0) +
      raise ix n ent

def WakeGuard (info : Seminfo) (s : Sys) : Event → Prop
  | .semget _ a => ∀ p ∈ s.sleepers, freeSlot info s = some (ipcidToIx p.id) →
    p.semaptr = a ∧ nextSeq s (ipcidToIx p.id) ≠ ipcidToSeq p.id
  | .semop _ id sops _ _ _ => s.sleepers.length < 65535 ∧
    ∀ a, findSet info s id = some a → VectorFits (s.heap a) sops
  | .resume i _ _ => ∀ p, s.sleepers[i]? = some p → VectorFits (s.heap p.semaptr) p.sops
  | .setval _ _ val _ => 0 ≤ val
  | .exit pr => ∀ ix a, s.sema ix = some a → ∀ n,
    (((s.heap a).semval n).toNat : Int) + raise ix n (ents s.undos pr) ≤ semvmx
  | _ => True

/-! ## The invariant -/

/-- The process is counted for this semaphore of this set, as waiting for 0 or for more. -/
def Sleeper.countsOn (p : Sleeper) (born n : Nat) (zero : Bool) : Bool :=
  decide (p.born = born) && decide (p.sopptr.semNum.toNat = n) &&
    (decide (p.sopptr.semOp = 0#16) == zero)

/-- What is known of a sleeper: its set is there and it cannot go on yet, or a wakeup has been
issued; and if its set is gone it will notice. -/
structure SleeperOk (s : Sys) (p : Sleeper) : Prop where
  old : p.born < s.made
  home : ∀ ix a, s.sema ix = some a → (s.heap a).born = p.born →
    ix = ipcidToIx p.id ∧ a = p.semaptr
  state : (s.sema (ipcidToIx p.id) = some p.semaptr ∧ (s.heap p.semaptr).born = p.born ∧
      (s.heap p.semaptr).seq = ipcidToSeq p.id ∧
      (p.woken = false → Waits (s.heap p.semaptr) p)) ∨
    (p.woken = true ∧ (s.sema (ipcidToIx p.id) = none ∨
      (s.sema (ipcidToIx p.id) = some p.semaptr ∧ (s.heap p.semaptr).born ≠ p.born ∧
        (s.heap p.semaptr).seq ≠ ipcidToSeq p.id)))

structure WakeInv (info : Seminfo) (s : Sys) : Prop where
  range : ∀ ix a, s.sema ix = some a → ix < info.semmni
  inj : ∀ i j a, s.sema i = some a → s.sema j = some a → i = j
  bornInj : ∀ i j a b, s.sema i = some a → s.sema j = some b →
    (s.heap a).born = (s.heap b).born → i = j
  old : ∀ ix a, s.sema ix = some a → (s.heap a).born < s.made
  bound : ∀ ix a, s.sema ix = some a → ∀ n, (((s.heap a).semval n).toNat : Int) ≤ semvmx
  ncnt : ∀ ix a, s.sema ix = some a → ∀ n, (s.heap a).semncnt n =
    BitVec.ofNat 16 (s.sleepers.countP fun p => p.countsOn (s.heap a).born n false)
  zcnt : ∀ ix a, s.sema ix = some a → ∀ n, (s.heap a).semzcnt n =
    BitVec.ofNat 16 (s.sleepers.countP fun p => p.countsOn (s.heap a).born n true)
  few : s.sleepers.length < 65536
  sleepers : ∀ p ∈ s.sleepers, SleeperOk s p

theorem start_wakeInv (info : Seminfo) : WakeInv info Sys.start where
  range := fun _ _ h => by cases h
  inj := fun _ _ _ h => by cases h
  bornInj := fun _ _ _ _ h => by cases h
  old := fun _ _ h => by cases h
  bound := fun _ _ h => by cases h
  ncnt := fun _ _ h => by cases h
  zcnt := fun _ _ h => by cases h
  few := by decide
  sleepers := fun _ hp => absurd hp List.not_mem_nil

/-! ## Waking sleepers -/

/-- The same process, perhaps awake now. -/
def Rouse (p p' : Sleeper) : Prop :=
  p' = { p with woken := p'.woken } ∧ (p.woken = true → p'.woken = true)

def Roused (l l' : List Sleeper) : Prop := List.Forall₂ Rouse l l'

theorem Roused.refl (l : List Sleeper) : Roused l l := by
  induction l with
  | nil => exact .nil
  | cons p l ih => exact .cons ⟨rfl, id⟩ ih

theorem Rouse.trans {p p' p'' : Sleeper} (h : Rouse p p') (h' : Rouse p' p'') : Rouse p p'' := by
  refine ⟨?_, fun hw => h'.2 (h.2 hw)⟩
  obtain ⟨h1, -⟩ := h
  obtain ⟨h2, -⟩ := h'
  rw [h2, h1]

theorem Roused.trans {l l' l'' : List Sleeper} (h : Roused l l') (h' : Roused l' l'') :
    Roused l l'' := by
  induction h generalizing l'' with
  | nil => exact h'
  | cons hp _ ih =>
      cases h' with
      | cons hp' hl' => exact .cons (hp.trans hp') (ih hl')

theorem roused_wakeup (s : Sys) (ix : Nat) : Roused s.sleepers (wakeup s ix).sleepers := by
  change Roused s.sleepers (s.sleepers.map _)
  induction s.sleepers with
  | nil => exact .nil
  | cons p l ih =>
      refine .cons ?_ ih
      dsimp only
      split
      · exact ⟨rfl, fun _ => rfl⟩
      · exact ⟨rfl, id⟩

theorem Roused.mem {l l' : List Sleeper} (h : Roused l l') {p' : Sleeper} (hp' : p' ∈ l') :
    ∃ p ∈ l, Rouse p p' := by
  induction h with
  | nil => cases hp'
  | cons hp _ ih =>
      rcases List.mem_cons.mp hp' with rfl | hp'
      · exact ⟨_, List.mem_cons_self, hp⟩
      · obtain ⟨q, hq, hr⟩ := ih hp'
        exact ⟨q, List.mem_cons_of_mem _ hq, hr⟩

theorem Roused.countP {l l' : List Sleeper} (h : Roused l l') (born n : Nat) (zero : Bool) :
    l'.countP (fun p => p.countsOn born n zero) = l.countP fun p => p.countsOn born n zero := by
  induction h with
  | nil => rfl
  | cons hp _ ih =>
      have hsame := hp.1
      rw [List.countP_cons, List.countP_cons, ih, hsame]
      rfl

theorem Roused.length {l l' : List Sleeper} (h : Roused l l') : l'.length = l.length :=
  (List.Forall₂.length_eq h).symm

section Steps

variable {info : Seminfo} {s s' : Sys}

/-- Sets and slots are as they were, and the sleepers that no wakeup has reached still
cannot go on. -/
theorem WakeInv.of_roused (h : WakeInv info s) (hsets : SameSets s s') (hmade : s'.made = s.made)
    (hncnt : ∀ a, (s'.heap a).semncnt = (s.heap a).semncnt)
    (hzcnt : ∀ a, (s'.heap a).semzcnt = (s.heap a).semzcnt)
    (hr : Roused s.sleepers s'.sleepers)
    (hbound : ∀ ix a, s.sema ix = some a → ∀ n, (((s'.heap a).semval n).toNat : Int) ≤ semvmx)
    (hwait : ∀ p ∈ s.sleepers, ∀ p' ∈ s'.sleepers, Rouse p p' → p'.woken = false →
      s.sema (ipcidToIx p.id) = some p.semaptr → (s.heap p.semaptr).born = p.born →
      Waits (s.heap p.semaptr) p → Waits (s'.heap p.semaptr) p) : WakeInv info s' where
  range := hsets.sema ▸ h.range
  inj := hsets.sema ▸ h.inj
  bornInj := fun i j a b hi hj hb => by
    rw [hsets.sema] at hi hj
    rw [hsets.born, hsets.born] at hb
    exact h.bornInj i j a b hi hj hb
  old := fun ix a ha => by
    rw [hsets.sema] at ha
    rw [hsets.born, hmade]
    exact h.old ix a ha
  bound := hsets.sema ▸ hbound
  ncnt := fun ix a ha n => by
    rw [hsets.sema] at ha
    rw [hncnt, hsets.born, hr.countP]
    exact h.ncnt ix a ha n
  zcnt := fun ix a ha n => by
    rw [hsets.sema] at ha
    rw [hzcnt, hsets.born, hr.countP]
    exact h.zcnt ix a ha n
  few := hr.length ▸ h.few
  sleepers := fun p' hp' => by
    obtain ⟨p, hp, hrouse⟩ := hr.mem hp'
    obtain ⟨hold, hhome, hstate⟩ := h.sleepers p hp
    have hid : p'.id = p.id := by rw [hrouse.1]
    have haddr : p'.semaptr = p.semaptr := by rw [hrouse.1]
    have hborn : p'.born = p.born := by rw [hrouse.1]
    refine ⟨by rw [hborn, hmade]; exact hold, fun ix a ha hb => ?_, ?_⟩
    · rw [hsets.sema] at ha
      rw [hsets.born, hborn] at hb
      rw [hid, haddr]
      exact hhome ix a ha hb
    · rw [hsets.sema, hid, haddr, hborn, hsets.born, hsets.seq]
      rcases hstate with ⟨h1, h2, h3, h4⟩ | ⟨hw, hrest⟩
      · refine .inl ⟨h1, h2, h3, fun hw' => ?_⟩
        have hw : p.woken = false := by
          cases hw : p.woken with
          | false => rfl
          | true => rw [hrouse.2 hw] at hw'; cases hw'
        have := hwait p hp p' hp' hrouse hw' h1 h2 (h4 hw)
        obtain ⟨k, hk⟩ := this
        refine ⟨k, ?_⟩
        have hsops : p'.sops = p.sops := by rw [hrouse.1]
        have hptr : p'.sopptr = p.sopptr := by rw [hrouse.1]
        rw [hsops, hptr]
        exact hk
      · exact .inr ⟨hrouse.2 hw, hrest⟩

/-- The set in slot `ix` changes its values, and all its sleepers are woken. -/
theorem WakeInv.of_wakeup (h : WakeInv info s) {t : Sys} {ix a : Nat} {m : Semid}
    (hslot : s.sema ix = some a) (hsema : t.sema = s.sema) (hmade : t.made = s.made)
    (hsleep : t.sleepers = s.sleepers) (hheap : t.heap = Function.update s.heap a m)
    (hm : m.nsems = (s.heap a).nsems ∧ m.seq = (s.heap a).seq ∧ m.born = (s.heap a).born)
    (hcnt : m.semncnt = (s.heap a).semncnt ∧ m.semzcnt = (s.heap a).semzcnt)
    (hbound : ∀ n, ((m.semval n).toNat : Int) ≤ semvmx) : WakeInv info (wakeup t ix) := by
  have hcell (b : Nat) : (wakeup t ix).heap b = if b = a then m else s.heap b := by
    change t.heap b = _
    rw [hheap, Function.update_apply]
  have hother {b : Nat} (hb : b ≠ a) : (wakeup t ix).heap b = s.heap b := by
    rw [hcell, if_neg hb]
  have hcount (b : Nat) : ((wakeup t ix).heap b).semncnt = (s.heap b).semncnt ∧
      ((wakeup t ix).heap b).semzcnt = (s.heap b).semzcnt := by
    rw [hcell]
    split
    · rename_i hb
      rw [hb]
      exact hcnt
    · exact ⟨rfl, rfl⟩
  refine h.of_roused (.of_update hsema hheap hm) hmade (fun b => (hcount b).1)
    (fun b => (hcount b).2) ?_ (fun j b hb n => ?_) (fun p hp p' hp' hrouse hw' h1 h2 hwaits => ?_)
  · rw [← hsleep]
    exact roused_wakeup t ix
  · rw [hcell]
    split
    · exact hbound n
    · exact h.bound j b hb n
  · -- a sleeper that was not woken is one of another set
    obtain ⟨q, hq, rfl⟩ := List.mem_map.mp hp'
    by_cases hix : ipcidToIx q.id = ix
    · rw [if_pos hix] at hw'
      cases hw'
    · have hne : p.semaptr ≠ a := by
        intro ha
        rw [if_neg hix] at hrouse
        have hid : q.id = p.id := by rw [hrouse.1]
        rw [ha] at h1
        exact hix (hid ▸ h.inj _ _ a h1 hslot)
      rw [hother hne]
      exact hwaits

/-! ## `semop` -/

/-- Someone who is counted is not overlooked. -/
theorem count_ne_zero {l : List Sleeper} (hfew : l.length < 65536) {q : Sleeper → Bool} {p : Sleeper}
    (hp : p ∈ l) (hq : q p = true) : BitVec.ofNat 16 (l.countP q) ≠ 0#16 := by
  have hpos : 0 < l.countP q := List.countP_pos_iff.mpr ⟨p, hp, hq⟩
  have hle : l.countP q ≤ l.length := List.countP_le_length
  intro h0
  have := congrArg BitVec.toNat h0
  rw [BitVec.toNat_ofNat, BitVec.toNat_ofNat] at this
  omega

theorem WakeInv.counted (h : WakeInv info s) {p : Sleeper} (hp : p ∈ s.sleepers) {ix : Nat}
    (hslot : s.sema ix = some p.semaptr) (hborn : (s.heap p.semaptr).born = p.born) :
    (p.sopptr.semOp ≠ 0#16 → (s.heap p.semaptr).semncnt p.sopptr.semNum.toNat ≠ 0#16) ∧
    (p.sopptr.semOp = 0#16 → (s.heap p.semaptr).semzcnt p.sopptr.semNum.toNat ≠ 0#16) := by
  refine ⟨fun hop => ?_, fun hop => ?_⟩
  · rw [h.ncnt ix p.semaptr hslot]
    exact count_ne_zero h.few hp (by simp [Sleeper.countsOn, hborn, hop])
  · rw [h.zcnt ix p.semaptr hslot]
    exact count_ne_zero h.few hp (by simp [Sleeper.countsOn, hborn, hop])

/-- A cell whose values, size and names are the same, and the counts perhaps not. -/
theorem Waits.congr {m m' : Semid} {p : Sleeper} (h : Waits m p) (hval : m'.semval = m.semval) :
    Waits m' p := by
  obtain ⟨k, hk⟩ := h
  exact ⟨k, by rw [hval]; exact hk⟩

theorem count_semncnt (st : State) (op : Sembuf) (d : BitVec 16) (n : Nat) :
    (count st op d).semncnt n = st.semncnt n +
      if op.semNum.toNat = n ∧ op.semOp ≠ 0#16 then d else 0#16 := by
  rw [count]
  by_cases hz : op.semOp = 0#16
  · simp [hz]
  · by_cases hn : n = op.semNum.toNat
    · simp [hz, hn]
    · simp [hz, hn, Ne.symm hn]

theorem count_semzcnt (st : State) (op : Sembuf) (d : BitVec 16) (n : Nat) :
    (count st op d).semzcnt n = st.semzcnt n +
      if op.semNum.toNat = n ∧ op.semOp = 0#16 then d else 0#16 := by
  rw [count]
  by_cases hz : op.semOp = 0#16
  · by_cases hn : n = op.semNum.toNat
    · simp [hz, hn]
    · simp [hz, hn, Ne.symm hn]
  · simp [hz]

/-- A process goes to sleep: it is counted, and nothing else changes. -/
theorem WakeInv.asleep (h : WakeInv info s) {pr : Nat} {id : BitVec 32} {a : Nat}
    {sops : List Sembuf} {k : Nat} {op : Sembuf} (hroom : s.sleepers.length < 65535)
    (hslot : s.sema (ipcidToIx id) = some a) (hseq : (s.heap a).seq = ipcidToSeq id)
    (hstops : Stops ((s.heap a).semval op.semNum.toNat) sops k op) :
    WakeInv info (s.afterSleep pr id a sops op) := by
  obtain ⟨t, ht⟩ : ∃ t, t = s.afterSleep pr id a sops op := ⟨_, rfl⟩
  obtain ⟨p₀, hp₀⟩ : ∃ p₀, p₀ = Sleeper.mk pr id sops op a (s.heap a).born false := ⟨_, rfl⟩
  have hsets : SameSets s t := by
    rw [ht]
    exact .of_update rfl rfl ⟨rfl, rfl, rfl⟩
  have hsleep : t.sleepers = p₀ :: s.sleepers := by
    rw [ht, hp₀]
    rfl
  have hmade : t.made = s.made := by
    rw [ht]
    rfl
  have hval (b : Nat) : (t.heap b).semval = (s.heap b).semval := by
    rw [ht]
    exact store_semval (count_semval ..) b
  have hcell (b : Nat) (hb : b ≠ a) : t.heap b = s.heap b := by
    rw [ht]
    exact Function.update_of_ne hb _ _
  have hself : (t.heap a).semncnt = (count ((s.heap a).load s.undos) op 1).semncnt ∧
      (t.heap a).semzcnt = (count ((s.heap a).load s.undos) op 1).semzcnt := by
    have hup : t.heap a = { s.heap a with
        semval := (count ((s.heap a).load s.undos) op 1).semval
        semncnt := (count ((s.heap a).load s.undos) op 1).semncnt
        semzcnt := (count ((s.heap a).load s.undos) op 1).semzcnt
        sempid := (count ((s.heap a).load s.undos) op 1).sempid
        semOtime := (count ((s.heap a).load s.undos) op 1).semOtime } := by
      rw [ht]
      exact Function.update_self ..
    rw [hup]
    exact ⟨rfl, rfl⟩
  have hon (b n : Nat) (zero : Bool) : p₀.countsOn b n zero = (decide ((s.heap a).born = b) &&
      decide (op.semNum.toNat = n) && (decide (op.semOp = 0#16) == zero)) := by
    rw [hp₀]
    rfl
  rw [← ht]
  -- another set has another name, so the new sleeper is not counted there
  have hborn {j b : Nat} (hb : s.sema j = some b) (hne : b ≠ a) : (s.heap a).born ≠ (s.heap b).born := by
    intro heq
    obtain rfl := h.bornInj _ _ _ _ hslot hb heq
    exact hne (Option.some.inj (hb.symm.trans hslot))
  refine ⟨hsets.sema ▸ h.range, hsets.sema ▸ h.inj, fun i j b c hi hj hb => ?_, fun ix b hb => ?_,
    fun ix b hb n => ?_, fun ix b hb n => ?_, fun ix b hb n => ?_, ?_, fun p hp => ?_⟩
  · rw [hsets.sema] at hi hj
    rw [hsets.born, hsets.born] at hb
    exact h.bornInj i j b c hi hj hb
  · rw [hsets.sema] at hb
    rw [hsets.born, hmade]
    exact h.old ix b hb
  · rw [hsets.sema] at hb
    rw [hval]
    exact h.bound ix b hb n
  · rw [hsets.sema] at hb
    rw [hsets.born, hsleep, List.countP_cons, hon, BitVec.ofNat_add, ← h.ncnt ix b hb n]
    by_cases hab : b = a
    · subst hab
      rw [hself.1, count_semncnt]
      by_cases hn : op.semNum.toNat = n <;> by_cases hz : op.semOp = 0#16 <;>
        simp [hn, hz, Semid.load]
    · rw [hcell b hab]
      simp [hborn hb hab]
  · rw [hsets.sema] at hb
    rw [hsets.born, hsleep, List.countP_cons, hon, BitVec.ofNat_add, ← h.zcnt ix b hb n]
    by_cases hab : b = a
    · subst hab
      rw [hself.2, count_semzcnt]
      by_cases hn : op.semNum.toNat = n <;> by_cases hz : op.semOp = 0#16 <;>
        simp [hn, hz, Semid.load]
    · rw [hcell b hab]
      simp [hborn hb hab]
  · rw [hsleep, List.length_cons]
    omega
  · rw [hsleep] at hp
    rcases List.mem_cons.mp hp with rfl | hp
    · rw [hp₀]
      refine ⟨by rw [hmade]; exact h.old _ a hslot, fun ix b hb heq => ?_, .inl ?_⟩
      · rw [hsets.sema] at hb
        rw [hsets.born] at heq
        by_cases hba : b = a
        · exact ⟨h.inj ix _ a (hba ▸ hb) hslot, hba⟩
        · exact absurd heq.symm (hborn hb hba)
      · rw [hsets.sema, hsets.born, hsets.seq]
        exact ⟨hslot, rfl, hseq, fun _ => ⟨k, by rw [hval]; exact hstops⟩⟩
    · obtain ⟨hold, hhome, hstate⟩ := h.sleepers p hp
      refine ⟨by rw [hmade]; exact hold, fun ix b hb heq => ?_, ?_⟩
      · rw [hsets.sema] at hb
        rw [hsets.born] at heq
        exact hhome ix b hb heq
      · rw [hsets.sema, hsets.born, hsets.seq]
        exact hstate.imp_left fun ⟨h1, h2, h3, h4⟩ =>
          ⟨h1, h2, h3, fun hw => (h4 hw).congr (hval _)⟩

theorem VectorFits.not_tooBig {m : Semid} {sops : List Sembuf} (h : VectorFits m sops) {k : Nat}
    {op : Sembuf} (hop : sops[k]? = some op) : ¬m.nsems ≤ op.semNum.toNat :=
  Nat.not_le_of_lt (h.1 op (List.mem_of_getElem? hop))

theorem WakeInv.pass (h : WakeInv info s) {pr : Nat} {id : BitVec 32} {a : Nat}
    {sops : List Sembuf} {now : Nat} {r : Sys × Reply} (hroom : s.sleepers.length < 65535)
    (hslot : s.sema (ipcidToIx id) = some a) (hseq : (s.heap a).seq = ipcidToSeq id)
    (hfit : VectorFits (s.heap a) sops) (hr : PassSpec info s pr id a sops now r) :
    WakeInv info r.1 := by
  cases hr with
  | tooBig hop hbig => exact absurd hbig (hfit.not_tooBig hop)
  | refused => exact h
  | eagain => exact h
  | asleep hop hin happ hno => exact h.asleep hroom hslot hseq (stops_of_blocked hfit hop hin happ hno)
  | @done us w u happ hscan hrec =>
      have hval (n : Nat) : (((s.heap a).semval n + delta n sops).toNat : Int) ≤ semvmx := by
        have happ' : Applies (s.heap a).nsems (s.heap a).semval (sops.take sops.length) := by
          rwa [List.take_length]
        have hex := hfit.2.1.exact sops.length n happ'
        have hle := hfit.2.1 sops.length n happ'
        rw [List.take_length] at hex hle
        omega
      cases w with
      | true => exact h.of_wakeup hslot rfl rfl rfl rfl ⟨rfl, rfl, rfl⟩ ⟨rfl, rfl⟩ hval
      | false =>
          have hcell (b : Nat) : (s.afterPass pr (ipcidToIx id) a sops now us).heap b =
              if b = a then { s.heap a with
                semval := fun n => (s.heap a).semval n + delta n sops
                sempid := sops.foldl (fun pid op => Function.update pid op.semNum.toNat pr)
                  (s.heap a).sempid
                semOtime := now } else s.heap b := Function.update_apply ..
          refine h.of_roused (.of_update rfl rfl ⟨rfl, rfl, rfl⟩) rfl (fun b => ?_) (fun b => ?_)
            (.refl _) (fun ix b hb n => ?_) (fun p hp p' hp' _ _ h1 h2 hwaits => ?_)
          · rw [if_neg Bool.false_ne_true, hcell]
            split
            · rename_i hb; rw [hb]
            · rfl
          · rw [if_neg Bool.false_ne_true, hcell]
            split
            · rename_i hb; rw [hb]
            · rfl
          · rw [if_neg Bool.false_ne_true, hcell]
            split
            · exact hval n
            · exact h.bound ix b hb n
          · rw [if_neg Bool.false_ne_true, hcell]
            split
            · rename_i hpa
              obtain ⟨j, hstops⟩ := hwaits
              obtain ⟨hn, hz⟩ := h.counted hp h1 h2
              rw [hpa] at hstops hn hz
              exact ⟨j, hstops.of_pass hfit happ hscan hn hz⟩
            · exact hwaits

theorem countP_eraseIdx {l : List Sleeper} {i : Nat} {p : Sleeper} (h : l[i]? = some p)
    (q : Sleeper → Bool) : l.countP q = (l.eraseIdx i).countP q + if q p then 1 else 0 := by
  obtain ⟨hi, rfl⟩ := List.getElem?_eq_some_iff.mp h
  rw [← (List.getElem_cons_eraseIdx_perm hi).countP_eq, List.countP_cons]

theorem SleeperOk.congr {p : Sleeper} (h : SleeperOk s p) (hsets : SameSets s s')
    (hmade : s'.made = s.made) (hval : (s'.heap p.semaptr).semval = (s.heap p.semaptr).semval) :
    SleeperOk s' p := by
  obtain ⟨hold, hhome, hstate⟩ := h
  refine ⟨by rw [hmade]; exact hold, fun ix b hb heq => ?_, ?_⟩
  · rw [hsets.sema] at hb
    rw [hsets.born] at heq
    exact hhome ix b hb heq
  · rw [hsets.sema, hsets.born, hsets.seq]
    exact hstate.imp_left fun ⟨h1, h2, h3, h4⟩ => ⟨h1, h2, h3, fun hw => (h4 hw).congr hval⟩

/-- A process whose set is gone leaves: nobody counted it. -/
theorem WakeInv.leave (h : WakeInv info s) {i : Nat} {p : Sleeper} (hp : s.sleepers[i]? = some p)
    (hgone : ∀ ix a, s.sema ix = some a → (s.heap a).born ≠ p.born) :
    WakeInv info { s with sleepers := s.sleepers.eraseIdx i } := by
  have hnot {ix a : Nat} (ha : s.sema ix = some a) (n : Nat) (zero : Bool) :
      p.countsOn (s.heap a).born n zero = false := by
    simp [Sleeper.countsOn, Ne.symm (hgone ix a ha)]
  refine ⟨h.range, h.inj, h.bornInj, h.old, h.bound, fun ix a ha n => ?_, fun ix a ha n => ?_, ?_,
    fun q hq => ?_⟩
  · rw [h.ncnt ix a ha n, countP_eraseIdx hp, hnot ha]
    rfl
  · rw [h.zcnt ix a ha n, countP_eraseIdx hp, hnot ha]
    rfl
  · exact Nat.lt_of_le_of_lt (List.length_eraseIdx_le ..) h.few
  · have hq' := h.sleepers q (List.mem_of_mem_eraseIdx hq)
    exact ⟨hq'.old, hq'.home, hq'.state⟩

/-- A process whose set is there is no longer counted. -/
theorem WakeInv.awake (h : WakeInv info s) {i : Nat} {p : Sleeper} (hp : s.sleepers[i]? = some p)
    (hslot : s.sema (ipcidToIx p.id) = some p.semaptr)
    (hborn : (s.heap p.semaptr).born = p.born) : WakeInv info (s.awake i p) := by
  have hsets := awake_sameSets s i p
  have hmade : (s.awake i p).made = s.made := by
    rw [Sys.awake]
    split <;> rfl
  have hcell {b : Nat} (hb : b ≠ p.semaptr) : (s.awake i p).heap b = s.heap b := by
    rw [Sys.awake, if_pos hborn]
    exact Function.update_of_ne hb _ _
  have hself : (((s.awake i p).heap p.semaptr).semncnt =
        (count ((s.heap p.semaptr).load s.undos) p.sopptr (-1)).semncnt) ∧
      ((s.awake i p).heap p.semaptr).semzcnt =
        (count ((s.heap p.semaptr).load s.undos) p.sopptr (-1)).semzcnt := by
    rw [Sys.awake, if_pos hborn]
    simp only [Sys.store, Function.update_self, true_and]
  have hother {j b : Nat} (hb : s.sema j = some b) (hne : b ≠ p.semaptr) :
      p.born ≠ (s.heap b).born := by
    intro heq
    obtain rfl := h.bornInj _ _ _ _ hslot hb (hborn.trans heq)
    exact hne (Option.some.inj (hb.symm.trans hslot))
  have hsub (x : BitVec 16) : x + 1#16 + 65535#16 = x := by
    rw [BitVec.add_assoc]
    exact BitVec.add_zero x
  refine ⟨hsets.sema ▸ h.range, hsets.sema ▸ h.inj, fun i j b c hi hj hb => ?_, fun ix b hb => ?_,
    fun ix b hb n => ?_, fun ix b hb n => ?_, fun ix b hb n => ?_, ?_, fun q hq => ?_⟩
  · rw [hsets.sema] at hi hj
    rw [hsets.born, hsets.born] at hb
    exact h.bornInj i j b c hi hj hb
  · rw [hsets.sema] at hb
    rw [hsets.born, hmade]
    exact h.old ix b hb
  · rw [hsets.sema] at hb
    rw [awake_semval]
    exact h.bound ix b hb n
  · rw [hsets.sema] at hb
    have hn := h.ncnt ix b hb n
    rw [countP_eraseIdx hp, BitVec.ofNat_add] at hn
    rw [hsets.born, awake_sleepers]
    by_cases hab : b = p.semaptr
    · subst hab
      rw [hself.1, count_semncnt]
      change (s.heap p.semaptr).semncnt n + _ = _
      rw [hn]
      by_cases hnum : p.sopptr.semNum.toNat = n <;> by_cases hz : p.sopptr.semOp = 0#16 <;>
        simp [Sleeper.countsOn, hborn, hnum, hz, hsub]
    · rw [hcell hab, hn]
      simp [Sleeper.countsOn, hother hb hab]
  · rw [hsets.sema] at hb
    have hn := h.zcnt ix b hb n
    rw [countP_eraseIdx hp, BitVec.ofNat_add] at hn
    rw [hsets.born, awake_sleepers]
    by_cases hab : b = p.semaptr
    · subst hab
      rw [hself.2, count_semzcnt]
      change (s.heap p.semaptr).semzcnt n + _ = _
      rw [hn]
      by_cases hnum : p.sopptr.semNum.toNat = n <;> by_cases hz : p.sopptr.semOp = 0#16 <;>
        simp [Sleeper.countsOn, hborn, hnum, hz, hsub]
    · rw [hcell hab, hn]
      simp [Sleeper.countsOn, hother hb hab]
  · rw [awake_sleepers]
    exact Nat.lt_of_le_of_lt (List.length_eraseIdx_le ..) h.few
  · rw [awake_sleepers] at hq
    exact (h.sleepers q (List.mem_of_mem_eraseIdx hq)).congr hsets hmade (awake_semval ..)

/-- A set that the check of `sys_semop` finds in place is the one the process slept on. -/
theorem SleeperOk.here {p : Sleeper} (h : SleeperOk s p) (hslot : s.sema (ipcidToIx p.id) ≠ none)
    (hseq : (s.heap p.semaptr).seq = ipcidToSeq p.id) :
    s.sema (ipcidToIx p.id) = some p.semaptr ∧ (s.heap p.semaptr).born = p.born := by
  rcases h.state with ⟨h1, h2, -, -⟩ | ⟨-, h1 | ⟨-, -, h3⟩⟩
  · exact ⟨h1, h2⟩
  · exact absurd h1 hslot
  · exact absurd hseq h3

/-- One that it does not find there is gone. -/
theorem SleeperOk.gone {p : Sleeper} (h : SleeperOk s p)
    (hcheck : s.sema (ipcidToIx p.id) = none ∨ (s.heap p.semaptr).seq ≠ ipcidToSeq p.id) :
    ∀ ix a, s.sema ix = some a → (s.heap a).born ≠ p.born := by
  intro ix a ha hb
  obtain ⟨rfl, rfl⟩ := h.home ix a ha hb
  rcases h.state with ⟨h1, -, h3, -⟩ | ⟨-, h1 | ⟨-, h2, -⟩⟩
  · rcases hcheck with hc | hc
    · rw [hc] at h1
      cases h1
    · exact hc h3
  · rw [h1] at ha
    cases ha
  · exact h2 hb

theorem WakeInv.resume (h : WakeInv info s) {i : Nat} {intr : Bool} {now : Nat} {r : Reply}
    (hg : WakeGuard info s (.resume i intr now))
    (hr : semopResume info s i intr now = some (s', r)) : WakeInv info s' := by
  obtain ⟨p, hp, -, ⟨hcheck, rfl, -⟩ | ⟨hslot, hseq, hrest⟩⟩ := semopResume_cases hr
  · exact h.leave hp ((h.sleepers p (List.mem_of_getElem? hp)).gone hcheck)
  · obtain ⟨h1, h2⟩ := (h.sleepers p (List.mem_of_getElem? hp)).here hslot hseq
    have hawake := h.awake hp h1 h2
    rcases hrest with ⟨-, rfl, -⟩ | ⟨-, hpass⟩
    · exact hawake
    · have hsets := awake_sameSets s i p
      refine hawake.pass ?_ (hsets.sema ▸ h1) (by rw [hsets.seq]; exact hseq) ?_ (pass_spec hpass)
      · have hlen := List.length_eraseIdx_of_lt (List.getElem?_eq_some_iff.mp hp).1
        have := h.few
        rw [awake_sleepers, hlen]
        omega
      · have hfit := hg p hp
        rw [VectorFits, hsets.nsems, awake_semval]
        exact hfit

/-! ## The other calls -/

theorem WakeInv.setval (h : WakeInv info s) {id : BitVec 32} {semnum val : Int}
    {ipcperm : Option Errno} (hg : 0 ≤ val) :
    WakeInv info (Semop.setval info s id semnum val ipcperm).1 := by
  rcases setval_cases info s id semnum val ipcperm with ⟨heq, -⟩ | ⟨a, n, hfind, rfl, hn, hle, heq⟩
  · rw [heq]
    exact h
  · rw [heq]
    have hslot := (findSet_some hfind).2.1
    refine h.of_wakeup hslot rfl rfl rfl rfl ⟨rfl, rfl, rfl⟩ ⟨rfl, rfl⟩ fun m => ?_
    dsimp only
    rw [Function.update_apply]
    split
    · have h0 := toNat_add_ofInt (v := 0#16) (d := val) (by simpa using hg) (by simpa using hle)
      rw [BitVec.zero_add] at h0
      rw [h0]
      simpa using hle
    · exact h.bound _ a hslot m

theorem WakeInv.setall (h : WakeInv info s) {id : BitVec 32} {array : Nat → Option (BitVec 16)}
    {ipcperm : Option Errno} : WakeInv info (Semop.setall info s id array ipcperm).1 := by
  rcases setall_cases info s id array ipcperm with ⟨heq, -⟩ | ⟨a, hfind, harr, heq⟩
  · rw [heq]
    exact h
  · rw [heq]
    have hslot := (findSet_some hfind).2.1
    refine h.of_wakeup hslot rfl rfl rfl rfl ⟨rfl, rfl, rfl⟩ ⟨rfl, rfl⟩ fun m => ?_
    dsimp only
    split
    · rename_i hm
      obtain ⟨v, hv, hle⟩ := harr m hm
      rw [hv]
      exact hle
    · exact h.bound _ a hslot m

/-- The sleepers of a set that goes are woken, and those of the others do not notice. -/
theorem WakeInv.rmid (h : WakeInv info s) {id : BitVec 32} {ipcperm : Option Errno} :
    WakeInv info (Semop.rmid info s id ipcperm).1 := by
  rcases rmid_cases info s id ipcperm with heq | ⟨a, -, heq⟩
  · rw [heq]
    exact h
  rw [heq]
  obtain ⟨t, ht⟩ : ∃ t, t = s.afterRmid (ipcidToIx id) a := ⟨_, rfl⟩
  have hheap : t.heap = s.heap := by rw [ht]; rfl
  have hmade : t.made = s.made := by rw [ht]; rfl
  have hsema (j : Nat) : t.sema j = if j = ipcidToIx id then none else s.sema j := by
    rw [ht]
    exact Function.update_apply ..
  have hr : Roused s.sleepers t.sleepers := by
    rw [ht]
    exact roused_wakeup _ _
  have hsome {j b : Nat} (hj : t.sema j = some b) : s.sema j = some b := by
    rw [hsema] at hj
    split at hj
    · cases hj
    · exact hj
  rw [← ht]
  refine ⟨fun ix b hb => h.range ix b (hsome hb),
    fun i j b hi hj => h.inj i j b (hsome hi) (hsome hj),
    fun i j b c hi hj hb => h.bornInj i j b c (hsome hi) (hsome hj) (hheap ▸ hb),
    fun ix b hb => by rw [hheap, hmade]; exact h.old ix b (hsome hb),
    fun ix b hb => by rw [hheap]; exact h.bound ix b (hsome hb),
    fun ix b hb n => by rw [hheap, hr.countP]; exact h.ncnt ix b (hsome hb) n,
    fun ix b hb n => by rw [hheap, hr.countP]; exact h.zcnt ix b (hsome hb) n,
    hr.length ▸ h.few, fun p' hp' => ?_⟩
  obtain ⟨p, hp, rfl⟩ : ∃ p ∈ s.sleepers, (if ipcidToIx p.id = ipcidToIx id then
      { p with woken := true } else p) = p' := by
    rw [ht] at hp'
    exact List.mem_map.mp hp'
  obtain ⟨hold, hhome, hstate⟩ := h.sleepers p hp
  split
  · rename_i hid
    refine ⟨by rw [hmade]; exact hold, fun ix b hb heq => ?_, .inr ⟨rfl, .inl ?_⟩⟩
    · rw [hheap] at heq
      exact hhome ix b (hsome hb) heq
    · rw [hsema, if_pos hid]
  · rename_i hid
    refine ⟨by rw [hmade]; exact hold, fun ix b hb heq => ?_, ?_⟩
    · rw [hheap] at heq
      exact hhome ix b (hsome hb) heq
    · rw [hsema, if_neg hid, hheap]
      exact hstate

/-- A new set has no sleepers, and those of the one before it in its slot will notice. -/
theorem WakeInv.semget (h : WakeInv info s) {nsems a : Nat} {r : Reply}
    (hg : WakeGuard info s (.semget nsems a)) (hr : Semop.semget info s nsems a = some (s', r)) :
    WakeInv info s' := by
  rcases semget_cases hr with rfl | ⟨ix, hfree, hix, hnone, hmem, rfl⟩
  · exact h
  obtain ⟨t, ht⟩ : ∃ t, t = s.made' ix nsems a := ⟨_, rfl⟩
  have hsema (j : Nat) : t.sema j = if j = ix then some a else s.sema j := by
    rw [ht]
    exact Function.update_apply ..
  have hsleep : t.sleepers = s.sleepers := by rw [ht]; rfl
  have hmade : t.made = s.made + 1 := by rw [ht]; rfl
  have hnew : t.heap a = Semid.mk (nextSeq s ix) nsems (fun _ => 0) (fun _ => 0) (fun _ => 0)
      (fun _ => 0) 0 s.made := by
    rw [ht]
    exact Function.update_self ..
  have hne {j b : Nat} (hb : s.sema j = some b) : b ≠ a := by
    rintro rfl
    exact hmem j (h.range j b hb) hb
  have hheap {j b : Nat} (hb : s.sema j = some b) : t.heap b = s.heap b := by
    rw [ht]
    exact Function.update_of_ne (hne hb) _ _
  rw [← ht]
  -- a slot holds the new set or the one it held
  have hcases {j b : Nat} (hb : t.sema j = some b) : (j = ix ∧ b = a) ∨ (j ≠ ix ∧ s.sema j = some b) := by
    rw [hsema] at hb
    split at hb
    · rename_i hj
      exact .inl ⟨hj, (Option.some.inj hb).symm⟩
    · rename_i hj
      exact .inr ⟨hj, hb⟩
  have hzero (n : Nat) (zero : Bool) :
      s.sleepers.countP (fun p => p.countsOn s.made n zero) = 0 := by
    rw [List.countP_eq_zero]
    intro p hp
    have := (h.sleepers p hp).old
    simp [Sleeper.countsOn, Nat.ne_of_lt this]
  refine ⟨fun j b hb => ?_, fun i j b hi hj => ?_, fun i j b c hi hj hbc => ?_, fun j b hb => ?_,
    fun j b hb n => ?_, fun j b hb n => ?_, fun j b hb n => ?_, hsleep ▸ h.few, fun p hp => ?_⟩
  · rcases hcases hb with ⟨rfl, -⟩ | ⟨-, hb⟩
    · exact hix
    · exact h.range j b hb
  · rcases hcases hi with ⟨rfl, rfl⟩ | ⟨-, hi⟩
    · rcases hcases hj with ⟨rfl, -⟩ | ⟨-, hj⟩
      · rfl
      · exact absurd rfl (hne hj)
    · rcases hcases hj with ⟨rfl, rfl⟩ | ⟨-, hj⟩
      · exact absurd rfl (hne hi)
      · exact h.inj i j b hi hj
  · rcases hcases hi with ⟨rfl, rfl⟩ | ⟨-, hi⟩
    · rcases hcases hj with ⟨rfl, -⟩ | ⟨-, hj⟩
      · rfl
      · rw [hnew, hheap hj] at hbc
        exact absurd hbc (Nat.ne_of_gt (h.old j c hj))
    · rcases hcases hj with ⟨rfl, rfl⟩ | ⟨-, hj⟩
      · rw [hnew, hheap hi] at hbc
        exact absurd hbc (Nat.ne_of_lt (h.old i b hi))
      · rw [hheap hi, hheap hj] at hbc
        exact h.bornInj i j b c hi hj hbc
  · rw [hmade]
    rcases hcases hb with ⟨-, rfl⟩ | ⟨-, hb⟩
    · rw [hnew]
      exact Nat.lt_succ_self _
    · rw [hheap hb]
      exact Nat.lt_succ_of_lt (h.old j b hb)
  · rcases hcases hb with ⟨-, rfl⟩ | ⟨-, hb⟩
    · rw [hnew]
      exact Int.natCast_nonneg 32767
    · rw [hheap hb]
      exact h.bound j b hb n
  · rw [hsleep]
    rcases hcases hb with ⟨-, rfl⟩ | ⟨-, hb⟩
    · rw [hnew, hzero]
      rfl
    · rw [hheap hb]
      exact h.ncnt j b hb n
  · rw [hsleep]
    rcases hcases hb with ⟨-, rfl⟩ | ⟨-, hb⟩
    · rw [hnew, hzero]
      rfl
    · rw [hheap hb]
      exact h.zcnt j b hb n
  · rw [hsleep] at hp
    obtain ⟨hold, hhome, hstate⟩ := h.sleepers p hp
    refine ⟨by rw [hmade]; exact Nat.lt_succ_of_lt hold, fun j b hb heq => ?_, ?_⟩
    · rcases hcases hb with ⟨-, rfl⟩ | ⟨-, hb⟩
      · rw [hnew] at heq
        exact absurd heq (Nat.ne_of_gt hold)
      · rw [hheap hb] at heq
        exact hhome j b hb heq
    · by_cases hid : ipcidToIx p.id = ix
      · obtain ⟨haddr, hseq⟩ := hg p hp (hid ▸ hfree)
        have hw : p.woken = true := by
          rcases hstate with ⟨h1, -⟩ | ⟨hw, -⟩
          · rw [hid, hnone] at h1
            cases h1
          · exact hw
        refine .inr ⟨hw, .inr ⟨?_, ?_, ?_⟩⟩
        · rw [hsema, if_pos hid, haddr]
        · rw [haddr, hnew]
          exact Nat.ne_of_gt hold
        · rw [haddr, hnew, ← hid]
          exact hseq
      · rw [hsema, if_neg hid]
        rcases hstate with ⟨h1, h2, h3, h4⟩ | ⟨hw, h1 | ⟨h1, h2, h3⟩⟩
        · exact .inl ⟨h1, by rw [hheap h1]; exact h2, by rw [hheap h1]; exact h3,
            by rw [hheap h1]; exact h4⟩
        · exact .inr ⟨hw, .inl h1⟩
        · exact .inr ⟨hw, .inr ⟨h1, by rw [hheap h1]; exact h2, by rw [hheap h1]; exact h3⟩⟩

/-! ## `semexit` -/

theorem toNat_exitVal_le {v adjval : BitVec 16}
    (h : (v.toNat : Int) + max 0 adjval.toInt ≤ semvmx) :
    ((exitVal v adjval).toNat : Int) ≤ v.toNat + max 0 adjval.toInt := by
  rw [toNat_exitVal (Int.le_trans (by omega) h)]
  omega

theorem raise_nonneg (ix n : Nat) (ent : List Undo) : 0 ≤ raise ix n ent := by
  induction ent with
  | nil => exact Int.le_refl _
  | cons u ent ih =>
      rw [raise]
      split <;> omega

/-- The loop of `semexit` changes values only, and wakes the sleepers of every set it changes. -/
structure Exited (s s' : Sys) : Prop where
  sets : SameSets s s'
  made : s'.made = s.made
  ncnt : ∀ a, (s'.heap a).semncnt = (s.heap a).semncnt
  zcnt : ∀ a, (s'.heap a).semzcnt = (s.heap a).semzcnt
  roused : Roused s.sleepers s'.sleepers
  bound : ∀ ix a, s.sema ix = some a → ∀ n, (((s'.heap a).semval n).toNat : Int) ≤ semvmx
  woken : ∀ ix a, s.sema ix = some a → (s'.heap a).semval = (s.heap a).semval ∨
    ∀ p' ∈ s'.sleepers, ipcidToIx p'.id = ix → p'.woken = true

theorem exitLoop_exited : ∀ (ent : List Undo) (s s' : Sys),
    (∀ i j a, s.sema i = some a → s.sema j = some a → i = j) →
    (∀ ix a, s.sema ix = some a → ∀ n,
      (((s.heap a).semval n).toNat : Int) + raise ix n ent ≤ semvmx) →
    exitLoop ent s = some s' → Exited s s' := by
  intro ent
  induction ent with
  | nil =>
      intro s s' _ hle hloop
      obtain rfl := Option.some.inj hloop
      refine ⟨.refl s, rfl, fun _ => rfl, fun _ => rfl, .refl _, fun ix a ha n => ?_,
        fun _ _ _ => .inl rfl⟩
      have := hle ix a ha n
      rwa [raise, Int.add_zero] at this
  | cons u ent ih =>
      intro s s' hinj hle hloop
      rw [exitLoop] at hloop
      cases hsema : s.sema u.unId.toNat with
      | none =>
          rw [hsema] at hloop
          cases hloop
      | some a₀ =>
          rw [hsema] at hloop
          dsimp only at hloop
          split at hloop
          · cases hloop
          obtain ⟨n₀, hn₀⟩ : ∃ n, n = u.unNum.toInt.toNat := ⟨_, rfl⟩
          obtain ⟨t, ht⟩ : ∃ t, t = wakeup (s.putVal a₀ n₀
              (exitVal ((s.heap a₀).semval n₀) u.unAdjval)) u.unId.toNat := ⟨_, rfl⟩
          rw [← hn₀, ← ht] at hloop
          have hsets : SameSets s t := by
            rw [ht]
            exact (sameSets_putVal s a₀ n₀ _).trans (sameSets_wakeup _ _)
          have hother {b : Nat} (hb : b ≠ a₀) : t.heap b = s.heap b := by
            rw [ht]
            exact Function.update_of_ne hb _ _
          have hself : t.heap a₀ = { s.heap a₀ with
              semval := Function.update (s.heap a₀).semval n₀
                (exitVal ((s.heap a₀).semval n₀) u.unAdjval) } := by
            rw [ht]
            exact Function.update_self ..
          have hcnt (b : Nat) : (t.heap b).semncnt = (s.heap b).semncnt ∧
              (t.heap b).semzcnt = (s.heap b).semzcnt := by
            by_cases hb : b = a₀
            · rw [hb, hself]
              exact ⟨rfl, rfl⟩
            · rw [hother hb]
              exact ⟨rfl, rfl⟩
          have hslot {ix a : Nat} (ha : s.sema ix = some a) : a = a₀ ↔ u.unId.toNat = ix := by
            constructor
            · rintro rfl
              exact hinj _ _ _ hsema ha
            · rintro rfl
              exact Option.some.inj (ha.symm.trans hsema)
          -- what is added now need not be added later
          have hle' : ∀ ix a, t.sema ix = some a → ∀ n,
              (((t.heap a).semval n).toNat : Int) + raise ix n ent ≤ semvmx := by
            intro ix a ha n
            rw [hsets.sema] at ha
            have hbound := hle ix a ha n
            have hpos := raise_nonneg ix n ent
            rw [raise] at hbound
            by_cases hhit : u.unId.toNat = ix ∧ u.unNum.toInt.toNat = n
            · obtain rfl := (hslot ha).mpr hhit.1
              obtain rfl : n₀ = n := hn₀.trans hhit.2
              rw [hself]
              dsimp only
              rw [Function.update_self]
              have hval : (((s.heap a).semval n₀).toNat : Int) + max 0 u.unAdjval.toInt ≤ semvmx := by
                omega
              have := toNat_exitVal_le hval
              omega
            · rw [if_neg hhit, Int.zero_add] at hbound
              by_cases hb : a = a₀
              · have hn : n ≠ n₀ := fun hn =>
                  hhit ⟨(hslot ha).mp hb, hn₀.symm.trans hn.symm⟩
                rw [hb] at hbound ⊢
                rw [hself]
                dsimp only
                rw [Function.update_of_ne hn]
                exact hbound
              · rw [hother hb]
                exact hbound
          have hex := ih t s' (hsets.sema ▸ hinj) hle' hloop
          have hrouse : Roused s.sleepers t.sleepers := by
            rw [ht]
            exact roused_wakeup (s.putVal a₀ n₀ _) _
          refine ⟨hsets.trans hex.sets, ?_, fun a => (hex.ncnt a).trans (hcnt a).1,
            fun a => (hex.zcnt a).trans (hcnt a).2, hrouse.trans hex.roused,
            fun ix a ha n => hex.bound ix a (hsets.sema ▸ ha) n, fun ix a ha => ?_⟩
          · rw [hex.made, ht]
            rfl
          · rcases hex.woken ix a (hsets.sema ▸ ha) with hsame | hall
            · by_cases hb : a = a₀
              · right
                intro p' hp' hix
                obtain ⟨p, hp, hr⟩ := hex.roused.mem hp'
                refine hr.2 ?_
                rw [ht] at hp
                obtain ⟨q, hq, rfl⟩ := List.mem_map.mp hp
                have hid : p'.id = q.id := by
                  rw [hr.1]
                  split <;> rfl
                rw [if_pos]
                rw [← hid, hix]
                exact ((hslot ha).mp hb).symm
              · exact .inl (hsame.trans (by rw [hother hb]))
            · exact .inr hall

theorem WakeInv.exit (h : WakeInv info s) {pr : Nat} {r : Reply}
    (hg : WakeGuard info s (.exit pr)) (hr : semexit s pr = some (s', r)) : WakeInv info s' := by
  suffices hex : Exited s s' by
    refine h.of_roused hex.sets hex.made hex.ncnt hex.zcnt hex.roused hex.bound
      fun p hp p' hp' hrouse hw' h1 h2 hwaits => ?_
    rcases hex.woken _ _ h1 with hsame | hall
    · exact hwaits.congr hsame
    · have hid : p'.id = p.id := by rw [hrouse.1]
      rw [hall p' hp' (by rw [hid])] at hw'
      cases hw'
  rw [semexit] at hr
  cases hl : lookupUndo s.undos pr with
  | none =>
      rw [hl] at hr
      obtain ⟨rfl, -⟩ := Prod.mk.inj (Option.some.inj hr)
      exact ⟨⟨rfl, fun _ => rfl, fun _ => rfl, fun _ => rfl⟩, rfl, fun _ => rfl, fun _ => rfl,
        .refl _, h.bound, fun _ _ _ => .inl rfl⟩
  | some ent =>
      have hent : ents s.undos pr = ent := by rw [ents, hl]; rfl
      rw [hl] at hr
      dsimp only at hr
      cases hloop : exitLoop ent s with
      | none =>
          rw [hloop] at hr
          cases hr
      | some t =>
          rw [hloop] at hr
          obtain ⟨rfl, -⟩ := Prod.mk.inj (Option.some.inj hr)
          obtain ⟨h1, h2, h3, h4, h5, h6, h7⟩ := exitLoop_exited ent s t h.inj (hent ▸ hg) hloop
          exact ⟨⟨h1.sema, h1.nsems, h1.seq, h1.born⟩, h2, h3, h4, h5, h6, h7⟩

theorem WakeInv.step (h : WakeInv info s) {e : Event} (hg : WakeGuard info s e)
    (hs : s.step info e = some s') : WakeInv info s' := by
  obtain ⟨⟨t, r⟩, he, rfl⟩ := Option.map_eq_some_iff.mp hs
  cases e with
  | semget nsems a => exact h.semget hg he
  | semop pr id sops ipcperm copyin now =>
      rcases semopStart_cases he with ⟨rfl, -⟩ | ⟨a, hfind, hpass⟩
      · exact h
      · obtain ⟨-, hslot, hseq⟩ := findSet_some hfind
        exact h.pass hg.1 hslot hseq (hg.2 a hfind) (pass_spec hpass)
  | resume i intr now => exact h.resume hg he
  | setval id semnum val ipcperm =>
      obtain rfl := congrArg Prod.fst (Option.some.inj he)
      exact h.setval hg
  | setall id array ipcperm =>
      obtain rfl := congrArg Prod.fst (Option.some.inj he)
      exact h.setall
  | rmid id ipcperm =>
      obtain rfl := congrArg Prod.fst (Option.some.inj he)
      exact h.rmid
  | exit pr =>
      rw [Sys.exec] at he
      split at he
      · cases he
      · exact h.exit hg he

end Steps

theorem runs_wakeInv {info : Seminfo} {s : Sys}
    (h : Runs (Sys.step info) (WakeGuard info) Sys.start s) : WakeInv info s :=
  Runs.invariant (fun _ _ _ hg hs hinv => hinv.step hg hs) h (start_wakeInv info)

/-- In every run whose calls meet the guard, a process that sleeps and has not been issued a
wakeup has its set, and its vector cannot be applied to the values there are; and a process
whose set is gone, another one in its slot or not, wakes up with `EIDRM`. -/
theorem no_missed_wakeup {info : Seminfo} {s : Sys}
    (h : Runs (Sys.step info) (WakeGuard info) Sys.start s) :
    (∀ p ∈ s.sleepers, p.woken = false → s.sema (ipcidToIx p.id) = some p.semaptr ∧
      ¬Applies (s.heap p.semaptr).nsems (s.heap p.semaptr).semval p.sops) ∧
    ∀ i p intr now, s.sleepers[i]? = some p → (p.woken = true ∨ intr = true) →
      (∀ a, s.sema (ipcidToIx p.id) = some a → (s.heap a).born ≠ p.born) →
      s.exec info (.resume i intr now) =
        some ({ s with sleepers := s.sleepers.eraseIdx i }, .eidrm) := by
  have hinv := runs_wakeInv h
  refine ⟨fun p hp hw => ?_, fun i p intr now hp hwake hgone => ?_⟩
  · rcases (hinv.sleepers p hp).state with ⟨h1, -, -, h4⟩ | ⟨hw', -⟩
    · exact ⟨h1, (h4 hw).not_applies (hinv.bound _ _ h1 _)⟩
    · rw [hw] at hw'
      cases hw'
  · have hcheck : s.sema (ipcidToIx p.id) = none ∨ (s.heap p.semaptr).seq ≠ ipcidToSeq p.id := by
      rcases (hinv.sleepers p (List.mem_of_getElem? hp)).state with ⟨h1, h2, -, -⟩ |
        ⟨-, h1 | ⟨-, -, h3⟩⟩
      · exact absurd h2 (hgone _ h1)
      · exact .inl h1
      · exact .inr h3
    have hgo : ¬((!p.woken && !intr) = true) := by
      rcases hwake with hw | hw <;> simp [hw]
    simp only [Sys.exec, semopResume, hp, if_neg hgo, if_pos hcheck]

/-- A process that waits for one more than there is. -/
theorem no_missed_wakeup_waiting : ∃ s p, Runs (Sys.step defaultInfo) (WakeGuard defaultInfo)
    Sys.start s ∧ s.sleepers = [p] ∧ p.woken = false ∧
    ¬Applies (s.heap p.semaptr).nsems (s.heap p.semaptr).semval p.sops := by
  have h₁ : Runs (Sys.step defaultInfo) (WakeGuard defaultInfo) Sys.start (Sys.start.made' 0 1 0) :=
    .single ⟨.semget 1 0, fun p hp => absurd hp List.not_mem_nil, rfl⟩
  have hg : WakeGuard defaultInfo (Sys.start.made' 0 1 0)
      (.semop 1 0x10000 [plainOp 0 (-1)] none none 0) := by
    refine ⟨by decide, fun a ha => ?_⟩
    obtain rfl : 0 = a := Option.some.inj (Eq.trans rfl ha)
    refine ⟨fun op hop => ?_, fun k n _ => ?_, fun k op hop hz => ?_⟩
    · obtain rfl := List.mem_singleton.mp hop
      decide
    · cases k with
      | zero =>
          change (0 : Int) + 0 ≤ 32767
          decide
      | succ k =>
          rw [List.take_of_length_le (by simp), intDelta, intDelta]
          change (0 : Int) + ((if 0 = n then -1 else 0) + 0) ≤ 32767
          split <;> omega
    · obtain rfl := List.mem_singleton.mp (List.mem_of_getElem? hop)
      cases hz
  have h₂ : Runs (Sys.step defaultInfo) (WakeGuard defaultInfo) Sys.start
      ((Sys.start.made' 0 1 0).afterSleep 1 0x10000 0 [plainOp 0 (-1)] (plainOp 0 (-1))) :=
    h₁.tail ⟨_, hg, rfl⟩
  exact ⟨_, _, h₂, rfl, rfl, ((no_missed_wakeup h₂).1 _ List.mem_cons_self rfl).2⟩

/-- A process that takes one and then waits for 0 finds 2 in the semaphore and sleeps; another
one takes one, which wakes nobody since the value is 1; now the first could go on. -/
theorem wakeup_missed : ∃ s p, Runs (Sys.step defaultInfo) (fun _ _ => True) Sys.start s ∧
    s.sleepers = [p] ∧ p.woken = false ∧ s.sema (ipcidToIx p.id) = some p.semaptr ∧
    Applies (s.heap p.semaptr).nsems (s.heap p.semaptr).semval p.sops := by
  have h₁ : Runs (Sys.step defaultInfo) (fun _ _ => True) Sys.start _ :=
    .single ⟨.semget 1 0, trivial, rfl⟩
  have h₂ : Runs (Sys.step defaultInfo) (fun _ _ => True) Sys.start _ :=
    h₁.tail ⟨.setval 0x10000 0 2 none, trivial, rfl⟩
  have h₃ : Runs (Sys.step defaultInfo) (fun _ _ => True) Sys.start _ :=
    h₂.tail ⟨.semop 1 0x10000 [plainOp 0 (-1), plainOp 0 0] none none 0, trivial, rfl⟩
  have h₄ : Runs (Sys.step defaultInfo) (fun _ _ => True) Sys.start _ :=
    h₃.tail ⟨.semop 2 0x10000 [plainOp 0 (-1)] none none 0, trivial, rfl⟩
  refine ⟨_, _, h₄, rfl, rfl, rfl, applies_cons.mpr ⟨⟨by decide, by decide, by decide⟩,
    applies_cons.mpr ⟨⟨by decide, by decide, by decide⟩, applies_nil⟩⟩⟩

end Obsd.Semop
