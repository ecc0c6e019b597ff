import Obsd.Semop

/-!
# A failed `semop` leaves nothing behind, or not

The operations of a vector add to the semaphores' values and a rollback
subtracts, in words of 16 bits, so a rollback of what was applied is exact
whatever the order (`rollback_semval`). Two exits go wrong: a semaphore
number that is too big has no rollback at all, and the loop that takes
back undo entries counts an unsigned number down while it is not negative.
-/

namespace Obsd.Semop

variable {st st' : State} {c : Call} {us : Undos} {suptr : Suptr}

/-! ## Values -/

/-- What operations add to a semaphore. -/
def delta (n : Nat) : List Sembuf → BitVec 16
  | [] => 0#16
  | op :: rest => (if op.semNum.toNat = n then op.semOp else 0#16) + delta n rest

theorem rollback_semval (ops : List Sembuf) : ∀ (st : State) (n : Nat),
    (rollback ops st).semval n = st.semval n - delta n ops := by
  induction ops with
  | nil =>
    intro st n
    exact (BitVec.sub_zero _).symm
  | cons op ops ih =>
    intro st n
    have hstep : rollback (op :: ops) st = rollback ops (addVal st op.semNum.toNat (-op.semOp)) := rfl
    rw [hstep, ih, addVal]
    dsimp only
    by_cases hn : op.semNum.toNat = n
    · rw [hn, Function.update_self, delta, if_pos hn]
      grind
    · rw [Function.update_of_ne (Ne.symm hn), delta, if_neg hn, BitVec.zero_add]

theorem rollback_undos (ops : List Sembuf) : ∀ st : State, (rollback ops st).undos = st.undos := by
  induction ops with
  | nil =>
    intro st
    rfl
  | cons op ops ih =>
    intro st
    exact ih (addVal st op.semNum.toNat (-op.semOp))

/-- An operation can be done when its semaphore has the value. -/
structure Goes (nsems : Nat) (v : BitVec 16) (op : Sembuf) : Prop where
  inRange : op.semNum.toNat < nsems
  down : op.semOp.toInt < 0 → 0 ≤ (v.toNat : Int) + op.semOp.toInt
  zero : op.semOp = 0#16 → v = 0#16

/-- Operations that can be done one after the other. -/
def Applies (nsems : Nat) (semval : Nat → BitVec 16) (ops : List Sembuf) : Prop :=
  ∀ j op, ops[j]? = some op →
    Goes nsems (semval op.semNum.toNat + delta op.semNum.toNat (ops.take j)) op

theorem applies_cons {nsems : Nat} {semval : Nat → BitVec 16} {op : Sembuf} {ops : List Sembuf} :
    Applies nsems semval (op :: ops) ↔ Goes nsems (semval op.semNum.toNat) op ∧
      Applies nsems (Function.update semval op.semNum.toNat (semval op.semNum.toNat + op.semOp)) ops := by
  have hval : ∀ (j : Nat) (n : Nat), semval n + delta n ((op :: ops).take (j + 1))
      = Function.update semval op.semNum.toNat (semval op.semNum.toNat + op.semOp) n
        + delta n (ops.take j) := by
    intro j n
    rw [List.take_succ_cons, delta]
    by_cases hn : op.semNum.toNat = n
    · rw [if_pos hn, hn, Function.update_self, BitVec.add_assoc]
    · rw [if_neg hn, Function.update_of_ne (Ne.symm hn), BitVec.zero_add]
  constructor
  · intro h
    refine ⟨?_, fun j op' hop => ?_⟩
    · have hhead := h 0 op rfl
      rwa [List.take_zero, delta, BitVec.add_zero] at hhead
    · have htail := h (j + 1) op' hop
      rwa [hval] at htail
  · rintro ⟨hhead, htail⟩ j op' hop
    cases j with
    | zero =>
      obtain rfl := Option.some.inj hop
      rwa [List.take_zero, delta, BitVec.add_zero]
    | succ j =>
      rw [hval]
      exact htail j op' hop

/-! ## The loop over the vector -/

/-- What the loop leaves, wherever it stops after `i` operations. -/
structure Applied (st st' : State) (ops : List Sembuf) : Prop where
  semval : ∀ n, st'.semval n = st.semval n + delta n ops
  undos : st'.undos = st.undos

theorem Applied.cons {op : Sembuf} {ops : List Sembuf}
    (h : Applied (addVal st op.semNum.toNat op.semOp) st' ops) : Applied st st' (op :: ops) where
  semval n := by
    rw [h.semval, addVal, delta]
    dsimp only
    by_cases hn : op.semNum.toNat = n
    · rw [if_pos hn, hn, Function.update_self, BitVec.add_assoc]
    · rw [if_neg hn, Function.update_of_ne (Ne.symm hn), BitVec.zero_add]
  undos := h.undos

/-- What the loop over the vector says and leaves. -/
inductive ScanSpec (nsems : Nat) (st : State) (i : Nat) (ops : List Sembuf) : Scan → Prop where
  | through {st' : State} {w u : Bool} (happ : Applies nsems st.semval ops) (hst : Applied st st' ops) :
    ScanSpec nsems st i ops (.through st' w u)
  | tooBig {st' : State} {k : Nat} {op : Sembuf} (happ : Applies nsems st.semval (ops.take k))
    (hop : ops[k]? = some op) (hbig : nsems ≤ op.semNum.toNat) (hst : Applied st st' (ops.take k)) :
    ScanSpec nsems st i ops (.tooBig st')
  | blocked {st' : State} {k : Nat} {op : Sembuf} (happ : Applies nsems st.semval (ops.take k))
    (hop : ops[k]? = some op) (hin : op.semNum.toNat < nsems)
    (hno : ¬ Goes nsems (st.semval op.semNum.toNat + delta op.semNum.toNat (ops.take k)) op)
    (hst : Applied st st' (ops.take k)) : ScanSpec nsems st i ops (.blocked st' (i + k) op)

theorem ScanSpec.cons {nsems i : Nat} {op : Sembuf} {ops : List Sembuf} {r : Scan}
    (hgoes : Goes nsems (st.semval op.semNum.toNat) op)
    (h : ScanSpec nsems (addVal st op.semNum.toNat op.semOp) (i + 1) ops r) :
    ScanSpec nsems st i (op :: ops) r := by
  cases h with
  | through happ hst => exact .through (applies_cons.mpr ⟨hgoes, happ⟩) hst.cons
  | @tooBig _ k _ happ hop hbig hst =>
    exact .tooBig (k := k + 1) (applies_cons.mpr ⟨hgoes, happ⟩) hop hbig hst.cons
  | @blocked _ k op' happ hop hin hno hst =>
    have hval : (addVal st op.semNum.toNat op.semOp).semval op'.semNum.toNat
        + delta op'.semNum.toNat (ops.take k)
        = st.semval op'.semNum.toNat + delta op'.semNum.toNat ((op :: ops).take (k + 1)) := by
      rw [← hst.semval, List.take_succ_cons, hst.cons.semval]
    rw [hval] at hno
    rw [show i + 1 + k = i + (k + 1) by omega]
    exact .blocked (applies_cons.mpr ⟨hgoes, happ⟩) hop hin hno hst.cons

theorem applies_nil {nsems : Nat} {semval : Nat → BitVec 16} : Applies nsems semval [] :=
  fun _ _ h => nomatch h

theorem applied_nil : Applied st st [] := ⟨fun _ => (BitVec.add_zero _).symm, rfl⟩

theorem scan_spec (nsems : Nat) (ops : List Sembuf) : ∀ (i : Nat) (st : State) (w u : Bool),
    ScanSpec nsems st i ops (scan nsems ops i st w u) := by
  induction ops with
  | nil =>
    intro i st w u
    exact .through applies_nil applied_nil
  | cons op ops ih =>
    intro i st w u
    rw [scan]
    split
    · rename_i hbig
      exact .tooBig (k := 0) applies_nil rfl hbig applied_nil
    · rename_i hin
      have hin : op.semNum.toNat < nsems := Nat.lt_of_not_le hin
      have hblocked : ¬ Goes nsems (st.semval op.semNum.toNat) op →
          ScanSpec nsems st i (op :: ops) (.blocked st i op) := by
        intro hno
        refine .blocked (k := 0) applies_nil rfl hin ?_ applied_nil
        rwa [List.take_zero, delta, BitVec.add_zero]
      split
      · rename_i hneg
        have hnz : op.semOp ≠ 0#16 := by
          intro hz
          rw [hz] at hneg
          exact absurd hneg (by decide)
        split
        · rename_i hlow
          exact hblocked fun hg => absurd (hg.down hneg) (by omega)
        · rename_i hlow
          exact .cons ⟨hin, fun _ => by omega, fun hz => absurd hz hnz⟩ (ih _ _ _ _)
      · rename_i hneg
        split
        · rename_i hz
          split
          · rename_i hpos
            refine hblocked fun hg => ?_
            rw [hg.zero hz] at hpos
            exact absurd hpos (by decide)
          · rename_i hpos
            have hval : st.semval op.semNum.toNat = 0#16 := by
              apply BitVec.eq_of_toNat_eq
              rw [BitVec.toNat_ofNat, Nat.zero_mod]
              omega
            have hsame : addVal st op.semNum.toNat op.semOp = st := by
              rw [addVal, hz, BitVec.add_zero, Function.update_eq_self]
            refine .cons ⟨hin, fun hlt => absurd hlt hneg, fun _ => hval⟩ ?_
            rw [hsame]
            exact ih _ _ _ _
        · rename_i hz
          exact .cons ⟨hin, fun hlt => absurd hlt hneg, fun h0 => absurd h0 hz⟩ (ih _ _ _ _)

/-! ## Undo entries -/

/-- The undo entries of operations, recorded one after the other. -/
def recorded (c : Call) : List Sembuf → Undos → Suptr → Option (Undos × Suptr)
  | [], us, suptr => some (us, suptr)
  | op :: rest, us, suptr =>
    if op.undoes then
      match semundoAdjust us c suptr op.semNum (-op.semOp) with
      | some (us, suptr, none) => recorded c rest us suptr
      | _ => none
    else recorded c rest us suptr

/-- `semundo_adjust` refuses the entry of operation `i`, after those of the operations before. -/
def RefusedAt (c : Call) (ops : List Sembuf) (us : Undos) (suptr : Suptr) (i : Nat) : Prop :=
  ∃ us' suptr' op, recorded c (ops.take i) us suptr = some (us', suptr') ∧ ops[i]? = some op
    ∧ op.undoes = true
    ∧ ∃ us'' suptr'' e, semundoAdjust us' c suptr' op.semNum (-op.semOp) = some (us'', suptr'', some e)

theorem refusedAt_zero {op : Sembuf} {ops : List Sembuf} : RefusedAt c (op :: ops) us suptr 0 ↔
    op.undoes = true ∧ ∃ us' suptr' e,
      semundoAdjust us c suptr op.semNum (-op.semOp) = some (us', suptr', some e) := by
  constructor
  · rintro ⟨us', suptr', op', hrec, hop, hundo, hadj⟩
    obtain ⟨rfl, rfl⟩ := Prod.mk.inj (Option.some.inj hrec)
    obtain rfl := Option.some.inj hop
    exact ⟨hundo, hadj⟩
  · rintro ⟨hundo, hadj⟩
    exact ⟨us, suptr, op, rfl, rfl, hundo, hadj⟩

/-- The index of a refusal, after an operation that has its entry or needs none. -/
theorem refusedAt_succ {op : Sembuf} {ops : List Sembuf} {us₁ : Undos} {suptr₁ : Suptr}
    (h : recorded c [op] us suptr = some (us₁, suptr₁)) (i : Nat) :
    RefusedAt c (op :: ops) us suptr (i + 1) ↔ RefusedAt c ops us₁ suptr₁ i := by
  have hrec : recorded c ((op :: ops).take (i + 1)) us suptr = recorded c (ops.take i) us₁ suptr₁ := by
    rw [List.take_succ_cons]
    simp only [recorded] at h ⊢
    split at h
    · rename_i hundo
      rw [if_pos hundo]
      split at h
      · obtain ⟨rfl, rfl⟩ := Prod.mk.inj (Option.some.inj h)
        rfl
      · cases h
    · rename_i hundo
      rw [if_neg hundo]
      obtain ⟨rfl, rfl⟩ := Prod.mk.inj (Option.some.inj h)
      rfl
  unfold RefusedAt
  rw [hrec]
  exact Iff.rfl

/-- After an entry that could not be recorded there is no further refusal. -/
theorem not_refusedAt_succ {op : Sembuf} {ops : List Sembuf}
    (h : recorded c [op] us suptr = none) (i : Nat) : ¬ RefusedAt c (op :: ops) us suptr (i + 1) := by
  rintro ⟨us', suptr', op', hrec, -⟩
  rw [List.take_succ_cons] at hrec
  simp only [recorded] at h hrec
  split at h
  · rename_i hundo
    rw [if_pos hundo] at hrec
    split at h
    · cases h
    · rename_i hadj
      split at hrec
      · rename_i us₂ suptr₂ hadj'
        exact hadj us₂ suptr₂ hadj'
      · cases hrec
  · cases h

/-- What the loop that records undo entries says: it is refused where an entry is. -/
inductive RecordSpec (c : Call) (us : Undos) (suptr : Suptr) (k : Nat) (ops : List Sembuf) : Record → Prop where
  | all {us' : Undos} (h : ∀ i, ¬ RefusedAt c ops us suptr i) : RecordSpec c us suptr k ops (.all us')
  | fault (h : ∀ i, ¬ RefusedAt c ops us suptr i) : RecordSpec c us suptr k ops .fault
  | refused {us' : Undos} {suptr' : Suptr} {i : Nat} {e : Errno}
    (h : ∀ j, RefusedAt c ops us suptr j ↔ j = i) :
    RecordSpec c us suptr k ops (.refused us' suptr' (k + i) e)

theorem RecordSpec.refused_iff {ops : List Sembuf} {k i : Nat} {us' : Undos} {suptr' : Suptr} {e : Errno}
    (h : RecordSpec c us suptr k ops (.refused us' suptr' i e)) :
    k ≤ i ∧ ∀ j, RefusedAt c ops us suptr j ↔ k + j = i := by
  cases h with
  | @refused _ _ i _ hiff =>
    refine ⟨Nat.le_add_right k i, fun j => ?_⟩
    rw [hiff]
    exact (Nat.add_left_cancel_iff).symm

theorem RecordSpec.cons {op : Sembuf} {ops : List Sembuf} {us₁ : Undos} {suptr₁ : Suptr} {k : Nat}
    {r : Record} (h : recorded c [op] us suptr = some (us₁, suptr₁))
    (hz : ¬ RefusedAt c (op :: ops) us suptr 0) (hr : RecordSpec c us₁ suptr₁ (k + 1) ops r) :
    RecordSpec c us suptr k (op :: ops) r := by
  have hall : (∀ i, ¬ RefusedAt c ops us₁ suptr₁ i) → ∀ i, ¬ RefusedAt c (op :: ops) us suptr i := by
    intro hno i
    cases i with
    | zero => exact hz
    | succ i =>
      rw [refusedAt_succ h]
      exact hno i
  cases hr with
  | all hno => exact .all (hall hno)
  | fault hno => exact .fault (hall hno)
  | @refused _ _ i _ hiff =>
    rw [show k + 1 + i = k + (i + 1) by omega]
    refine .refused fun j => ?_
    cases j with
    | zero => exact iff_of_false hz nofun
    | succ j =>
      rw [refusedAt_succ h, hiff]
      exact (Nat.succ_inj).symm

theorem recordUndos_spec (ops : List Sembuf) : ∀ (k : Nat) (us : Undos) (suptr : Suptr),
    RecordSpec c us suptr k ops (recordUndos c ops k us suptr) := by
  induction ops with
  | nil =>
    intro k us suptr
    refine .all ?_
    rintro i ⟨us', suptr', op, -, hop, -⟩
    cases hop
  | cons op ops ih =>
    intro k us suptr
    cases hundo : op.undoes with
    | false =>
      rw [recordUndos, hundo, if_neg Bool.false_ne_true]
      refine .cons ?_ ?_ (ih (k + 1) us suptr)
      · rw [recorded, hundo, if_neg Bool.false_ne_true, recorded]
      · rw [refusedAt_zero, hundo]
        exact fun hno => nomatch hno.1
    | true =>
      have hone : recorded c [op] us suptr = match semundoAdjust us c suptr op.semNum (-op.semOp) with
          | some (us, suptr, none) => some (us, suptr)
          | _ => none := by
        rw [recorded, hundo, if_pos rfl]
        rfl
      rw [recordUndos, hundo, if_pos rfl]
      cases hadj : semundoAdjust us c suptr op.semNum (-op.semOp) with
      | none =>
        rw [hadj] at hone
        refine .fault fun i => ?_
        cases i with
        | zero =>
          rw [refusedAt_zero, hadj]
          rintro ⟨-, us', suptr', e, he⟩
          cases he
        | succ i => exact not_refusedAt_succ hone i
      | some r =>
        obtain ⟨us₁, suptr₁, err⟩ := r
        rw [hadj] at hone
        cases err with
        | none =>
          refine .cons hone ?_ (ih (k + 1) us₁ suptr₁)
          rw [refusedAt_zero, hadj]
          rintro ⟨-, us', suptr', e, he⟩
          cases he
        | some e =>
          refine .refused (i := 0) fun j => ?_
          cases j with
          | zero => exact iff_of_true (refusedAt_zero.mpr ⟨hundo, us₁, suptr₁, e, hadj⟩) rfl
          | succ j => exact iff_of_false (not_refusedAt_succ hone j) nofun

/-- A refusal changes nothing. -/
theorem semundoAdjust_refused {n v : BitVec 16} {us' : Undos} {suptr' : Suptr} {e : Errno}
    (h : semundoAdjust us c suptr n v = some (us', suptr', some e)) : us' = us := by
  have hlisted : ∀ us₁, adjustListed us₁ c.pr c.semid n v = (us', suptr', some e) →
      us' = us₁ ∧ adjustEnt ((lookupUndo us₁ c.pr).getD []) c.semid n v = none := by
    intro us₁ hr
    rw [adjustListed] at hr
    split at hr
    · rename_i hent
      exact ⟨(Prod.mk.inj hr).1.symm, hent⟩
    · have he := (Prod.mk.inj (Prod.mk.inj hr).2).2
      cases he
  cases suptr with
  | freed ent =>
    rw [semundoAdjust] at h
    split at h
    · exact (Prod.mk.inj (Option.some.inj h)).1.symm
    · split at h
      · cases h
      · have he := (Prod.mk.inj (Prod.mk.inj (Option.some.inj h)).2).2
        cases he
  | listed => exact (hlisted us (Option.some.inj h)).1
  | null =>
    rw [semundoAdjust] at h
    split at h
    · exact (hlisted us (Option.some.inj h)).1
    · split at h
      · have he := (Prod.mk.inj (Prod.mk.inj (Option.some.inj h)).2).2
        cases he
      · split at h
        · exact (Prod.mk.inj (Option.some.inj h)).1.symm
        · -- a structure just allocated has room
          rename_i us₁ hal
          obtain ⟨-, hent⟩ := hlisted us₁ (Option.some.inj h)
          rw [semuAlloc] at hal
          split at hal
          · cases hal
          · obtain rfl := Option.some.inj hal
            have hempty : (lookupUndo { semuList := (c.pr, []) :: us.semuList
                                        semutot := us.semutot + 1 } c.pr).getD [] = [] := by
              rw [lookupUndo, List.lookup_cons_self]
              rfl
            rw [hempty, adjustEnt] at hent
            dsimp only [List.findIdx?_nil] at hent
            split at hent
            · cases hent
            · cases hent

theorem recordUndos_zero {ops : List Sembuf} {us' : Undos} {suptr' : Suptr} {e : Errno}
    (h : recordUndos c ops 0 us suptr = .refused us' suptr' 0 e) : us' = us := by
  cases ops with
  | nil => cases h
  | cons op ops =>
    have hlater : ∀ us₁ suptr₁, recordUndos c ops 1 us₁ suptr₁ ≠ .refused us' suptr' 0 e := by
      intro us₁ suptr₁ hr
      have hspec := recordUndos_spec (c := c) ops 1 us₁ suptr₁
      rw [hr] at hspec
      exact absurd hspec.refused_iff.1 (by decide)
    rw [recordUndos] at h
    split at h
    · split at h
      · cases h
      · exact absurd h (hlater _ _)
      · rename_i hadj
        obtain ⟨rfl, -, -, -⟩ := Record.refused.inj h
        exact semundoAdjust_refused hadj
    · exact absurd h (hlater _ _)

/-! ## The loop that does not end -/

/-- Counting down a `size_t` while it is not negative does not come to an end inside the vector. -/
theorem rollbackUndos_ne_done (rounds : Nat) : ∀ (j : BitVec 64) (us : Undos) (suptr : Suptr) (us' : Undos),
    rollbackUndos c rounds j us suptr ≠ .done us' := by
  induction rounds with
  | zero =>
    intro j us suptr us' h
    cases h
  | succ rounds ih =>
    intro j us suptr us' h
    have hj : 0#64 ≤ j := Nat.zero_le j.toNat
    rw [rollbackUndos, if_pos hj] at h
    split at h
    · cases h
    · split at h
      · split at h
        · cases h
        · cases h
        · exact ih _ _ _ _ h
      · exact ih _ _ _ _ h

/-! ## Errors -/

/-- An error means that nothing was done; and the loops that see to it come to an end. -/
def Restored (st : State) : Outcome → Prop
  | .ok _ _ => True
  | .fault => True
  | .error _ st' => st'.semval = st.semval ∧ st'.undos = st.undos
  | .stuck _ => False

/-- When that is so: a number that is too big comes before the operations have had any effect,
and no undo entry but that of the first operation is refused. -/
def Restores (st : State) (c : Call) : Prop :=
  c.exist = true → c.ipcperm = none → c.sops.length ≤ c.semopm → c.copyin = none →
    (∀ i op, Applies c.nsems st.semval (c.sops.take i) → c.sops[i]? = some op →
      c.nsems ≤ op.semNum.toNat → ∀ n, delta n (c.sops.take i) = 0#16)
    ∧ (Applies c.nsems st.semval c.sops → ∀ i, RefusedAt c c.sops st.undos .null i → i = 0)

theorem Applied.rollback {ops : List Sembuf} (h : Applied st st' ops) :
    (rollback ops st').semval = st.semval ∧ (rollback ops st').undos = st.undos := by
  refine ⟨?_, (rollback_undos ops st').trans h.undos⟩
  funext n
  rw [rollback_semval, h.semval]
  exact BitVec.add_sub_cancel _ _

theorem sleepOn_frame (st : State) (op : Sembuf) :
    (sleepOn st op).semval = st.semval ∧ (sleepOn st op).undos = st.undos := by
  rw [sleepOn]
  split
  · exact ⟨rfl, rfl⟩
  · exact ⟨rfl, rfl⟩

theorem undoes_of_refusedAt {ops : List Sembuf} {i : Nat} (h : RefusedAt c ops us suptr i) :
    ∃ op ∈ ops, op.undoes = true := by
  obtain ⟨-, -, op, -, hop, hundo, -⟩ := h
  exact ⟨op, List.mem_of_getElem? hop, hundo⟩

/-- Undo entries are recorded if an operation has one. -/
theorem scan_doUndos {nsems : Nat} (ops : List Sembuf) : ∀ {i : Nat} {st st' : State} {w u w' u' : Bool},
    scan nsems ops i st w u = .through st' w' u' → (∃ op ∈ ops, op.undoes = true) ∨ u = true → u' = true := by
  induction ops with
  | nil =>
    intro i st st' w u w' u' h hu
    injection h with _ _ hu'
    obtain ⟨op, hop, -⟩ | hu := hu
    · cases hop
    · exact hu' ▸ hu
  | cons op ops ih =>
    intro i st st' w u w' u' h hu
    have hsplit : (∃ op' ∈ ops, op'.undoes = true) ∨ op.undoes = true ∨ u = true := by
      obtain ⟨op', hop, hundo⟩ | hu := hu
      · obtain rfl | hop := List.mem_cons.mp hop
        · exact .inr (.inl hundo)
        · exact .inl ⟨op', hop, hundo⟩
      · exact .inr (.inr hu)
    have hflag : op.undoes = true → decide (op.semFlg &&& semUndo ≠ 0#16) = true ∧ op.semOp ≠ 0#16 := by
      intro hundo
      rw [Sembuf.undoes, Bool.and_eq_true] at hundo
      exact ⟨hundo.1, of_decide_eq_true hundo.2⟩
    rw [scan] at h
    split at h
    · cases h
    · split at h
      · split at h
        · cases h
        · refine ih h (hsplit.imp_right fun hu => ?_)
          rw [Bool.or_eq_true]
          exact hu.symm.imp_right fun hundo => (hflag hundo).1
      · split at h
        · rename_i hz
          split at h
          · cases h
          · exact ih h (hsplit.imp_right fun hu => hu.resolve_left fun hundo => (hflag hundo).2 hz)
        · refine ih h (hsplit.imp_right fun hu => ?_)
          rw [Bool.or_eq_true]
          exact hu.symm.imp_right fun hundo => (hflag hundo).1

/-- Of a vector, what can be done comes before what cannot. -/
theorem Applies.goes {nsems : Nat} {semval : Nat → BitVec 16} {ops : List Sembuf} {i k : Nat} {op : Sembuf}
    (h : Applies nsems semval (ops.take i)) (hk : k < i) (hop : ops[k]? = some op) :
    Goes nsems (semval op.semNum.toNat + delta op.semNum.toNat (ops.take k)) op := by
  have hget : (ops.take i)[k]? = some op := by
    rw [List.getElem?_take, if_pos hk]
    exact hop
  have hgoes := h k op hget
  rwa [List.take_take, Nat.min_eq_left (Nat.le_of_lt hk)] at hgoes

/-- From the recording of undo entries on. -/
theorem finish_restored_iff (h : Applied st st' c.sops) (rounds : Nat) (w u : Bool)
    (hu : (∃ op ∈ c.sops, op.undoes = true) → u = true) :
    Restored st (finish c rounds st' w u) ↔ ∀ i, RefusedAt c c.sops st.undos .null i → i = 0 := by
  rw [finish]
  cases u with
  | false =>
    exact iff_of_true trivial fun i hi => nomatch hu (undoes_of_refusedAt hi)
  | true =>
    rw [if_pos rfl, h.undos]
    have hspec := recordUndos_spec (c := c) c.sops 0 st.undos .null
    cases hr : recordUndos c c.sops 0 st.undos .null with
    | all us =>
      rw [hr] at hspec
      cases hspec with
      | all hno => exact iff_of_true trivial fun i hi => absurd hi (hno i)
    | fault =>
      rw [hr] at hspec
      cases hspec with
      | fault hno => exact iff_of_true trivial fun i hi => absurd hi (hno i)
    | refused us suptr i e =>
      rw [hr] at hspec
      have hiff : ∀ j, RefusedAt c c.sops st.undos .null j ↔ j = i := fun j => by
        rw [hspec.refused_iff.2, Nat.zero_add]
      dsimp only
      by_cases hi : i = 0
      · subst hi
        refine iff_of_true ?_ fun j hj => (hiff j).mp hj
        refine Applied.rollback (?_ : Applied st _ _)
        exact ⟨h.semval, recordUndos_zero hr⟩
      · rw [if_pos hi]
        refine iff_of_false ?_ fun hall => hi (hall i ((hiff i).mpr rfl))
        split
        · rename_i us' hdone
          exact absurd hdone (rollbackUndos_ne_done rounds _ _ _ us')
        · exact id

/-- Exactly when a call that fails leaves everything as it was. -/
theorem semop_restored_iff (st : State) (c : Call) (rounds : Nat) :
    Restored st (sysSemop st c rounds) ↔ Restores st c := by
  unfold sysSemop Restores
  cases hex : c.exist with
  | false => exact iff_of_true ⟨rfl, rfl⟩ fun h => nomatch h
  | true =>
    cases hperm : c.ipcperm with
    | some e => exact iff_of_true ⟨rfl, rfl⟩ fun _ h => nomatch h
    | none =>
      dsimp only
      rw [if_neg (by decide)]
      split
      · rename_i hnil
        have hnil := List.length_eq_zero_iff.mp hnil
        refine iff_of_true trivial fun _ _ _ _ => ⟨fun i op _ hop => ?_, fun _ i hi => ?_⟩
        · rw [hnil] at hop
          cases hop
        · obtain ⟨op, hop, -⟩ := undoes_of_refusedAt hi
          rw [hnil] at hop
          cases hop
      · split
        · rename_i hlong
          exact iff_of_true ⟨rfl, rfl⟩ fun _ _ hle => absurd hle (Nat.not_le_of_lt hlong)
        · rename_i hlong
          cases hcopy : c.copyin with
          | some e => exact iff_of_true ⟨rfl, rfl⟩ fun _ _ _ h => nomatch h
          | none =>
            have hspec := scan_spec c.nsems c.sops 0 st false false
            have hundo := fun st' w' u' => @scan_doUndos c.nsems c.sops 0 st st' false false w' u'
            generalize scan c.nsems c.sops 0 st false false = r at hspec hundo
            have hlong : c.sops.length ≤ c.semopm := Nat.le_of_not_lt hlong
            refine Iff.trans ?_ ⟨fun h _ _ _ _ => h, fun h => h rfl rfl hlong rfl⟩
            cases hspec with
            | @through st' w u happ hst =>
              have hu : (∃ op ∈ c.sops, op.undoes = true) → u = true :=
                fun hop => hundo st' w u rfl (.inl hop)
              refine (finish_restored_iff hst rounds w u hu).trans
                ⟨fun hall => ⟨fun i op _ hop hbig => ?_, fun _ => hall⟩, fun hall => hall.2 happ⟩
              exact absurd (happ i op hop).inRange (Nat.not_lt_of_le hbig)
            | @tooBig st' k op happ hop hbig hst =>
              have hval : st'.semval = st.semval ↔ ∀ n, delta n (c.sops.take k) = 0#16 := by
                rw [funext_iff]
                refine forall_congr' fun n => ?_
                rw [hst.semval]
                exact BitVec.add_right_eq_self
              constructor
              · rintro ⟨hsame, -⟩
                refine ⟨fun i op' happ' hop' hbig' => ?_, fun hall => ?_⟩
                · obtain hik | rfl | hik := Nat.lt_trichotomy i k
                  · exact absurd (happ.goes hik hop').inRange (Nat.not_lt_of_le hbig')
                  · exact hval.mp hsame
                  · exact absurd (happ'.goes hik hop).inRange (Nat.not_lt_of_le hbig)
                · exact absurd (hall k op hop).inRange (Nat.not_lt_of_le hbig)
              · intro hall
                exact ⟨hval.mpr (hall.1 k op happ hop hbig), hst.undos⟩
            | @blocked st' k op happ hop hin hno hst =>
              refine iff_of_true ?_ ⟨fun i op' happ' hop' hbig' => ?_, fun hall => ?_⟩
              · obtain ⟨hval, hus⟩ := hst.rollback
                dsimp only
                rw [Nat.zero_add]
                split
                · exact ⟨hval, hus⟩
                · obtain ⟨hval', hus'⟩ := sleepOn_frame (rollback (c.sops.take k) st') op
                  exact ⟨hval'.trans hval, hus'.trans hus⟩
              · obtain hik | rfl | hik := Nat.lt_trichotomy i k
                · exact absurd (happ.goes hik hop').inRange (Nat.not_lt_of_le hbig')
                · obtain rfl := Option.some.inj (hop.symm.trans hop')
                  exact absurd hin (Nat.not_lt_of_le hbig')
                · exact absurd (happ'.goes hik hop) hno
              · exact absurd (hall k op hop) hno

/-- A set of two semaphores, the first of them one, and nothing to undo anywhere. -/
def twoSems : State where
  semval n := if n = 0 then 1#16 else 0#16
  semncnt _ := 0#16
  semzcnt _ := 0#16
  sempid _ := 0
  semOtime := 0
  undos := { semuList := [], semutot := 0 }

/-- A call of process 7 that passes the checks at the start. -/
def callOf (sops : List Sembuf) (semmnu : Nat) : Call where
  pr := 7
  semid := 0
  nsems := 2
  sops := sops
  semopm := 100
  semmnu := semmnu
  timeSecond := 0
  exist := true
  ipcperm := none
  copyin := none

def takeFirst : Sembuf := { semNum := 0#16, semOp := -1#16, semFlg := 0#16 }
def noSuch : Sembuf := { semNum := 2#16, semOp := 1#16, semFlg := 0#16 }
def giveUndo : Sembuf := { semNum := 1#16, semOp := 1#16, semFlg := semUndo }

/-- The first semaphore stays taken when the second operation names one that is not there;
and with an undo entry refused at the second operation the loop reads outside the vector. -/
theorem semop_not_restored :
    (∃ st', sysSemop twoSems (callOf [takeFirst, noSuch] 30) 9 = .error .efbig st' ∧ st'.semval 0 = 0#16
      ∧ ¬ Restored twoSems (sysSemop twoSems (callOf [takeFirst, noSuch] 30) 9))
    ∧ sysSemop twoSems (callOf [takeFirst, giveUndo] 0) 9 = .stuck .outside := by
  refine ⟨⟨_, rfl, by decide, fun h => ?_⟩, rfl⟩
  exact absurd (congrFun h.1 0) (by decide)

end Obsd.Semop
