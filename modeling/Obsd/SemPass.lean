import Obsd.SemUndo

/-!
# One pass of `semop` over its vector

What a pass can do, said once: `pass_spec` lists the five ways it can end
and the whole state after each. Three of them leave nothing behind. A
semaphore number that is too big leaves the operations before it applied,
and a pass that goes through leaves the vector applied, its undo entries
recorded, and the sleepers of the set awake if an operation asked for it.
-/

namespace Obsd.Semop

variable {st st' : State}

/-! ## States with operations applied -/

/-- The state with operations applied. -/
def State.plus (st : State) (ops : List Sembuf) : State :=
  { st with semval := fun n => st.semval n + delta n ops }

/-- Everything but the values. -/
def SameRest (st st' : State) : Prop :=
  st'.semncnt = st.semncnt ∧ st'.semzcnt = st.semzcnt ∧ st'.sempid = st.sempid ∧
    st'.semOtime = st.semOtime

def Scan.state : Scan → State
  | .through st _ _ => st
  | .tooBig st => st
  | .blocked st _ _ => st

theorem scan_sameRest (nsems : Nat) (ops : List Sembuf) : ∀ (i : Nat) (st : State) (w u : Bool),
    SameRest st (scan nsems ops i st w u).state := by
  induction ops with
  | nil => exact fun _ _ _ _ => ⟨rfl, rfl, rfl, rfl⟩
  | cons op ops ih =>
      intro i st w u
      rw [scan]
      split
      · exact ⟨rfl, rfl, rfl, rfl⟩
      · split
        · split
          · exact ⟨rfl, rfl, rfl, rfl⟩
          · exact ih (i + 1) (addVal st op.semNum.toNat op.semOp) _ _
        · split
          · split
            · exact ⟨rfl, rfl, rfl, rfl⟩
            · exact ih (i + 1) st _ _
          · exact ih (i + 1) (addVal st op.semNum.toNat op.semOp) _ _

theorem Applied.eq_plus {ops : List Sembuf} (h : Applied st st' ops) (hrest : SameRest st st') :
    st' = st.plus ops := by
  obtain ⟨semval, semncnt, semzcnt, sempid, semOtime, undos⟩ := st'
  obtain ⟨rfl, rfl, rfl, rfl⟩ := hrest
  have hval : semval = fun n => st.semval n + delta n ops := funext h.semval
  have hundo : undos = st.undos := h.undos
  rw [hval, hundo]
  rfl

theorem rollback_sameRest (ops : List Sembuf) : ∀ st : State, SameRest st (rollback ops st) := by
  induction ops with
  | nil => exact fun _ => ⟨rfl, rfl, rfl, rfl⟩
  | cons op ops ih => exact fun st => ih (addVal st op.semNum.toNat (-op.semOp))

/-- Taking back what was applied. -/
theorem rollback_plus (st : State) (ops : List Sembuf) : rollback ops (st.plus ops) = st := by
  obtain ⟨h1, h2, h3, h4⟩ := rollback_sameRest ops (st.plus ops)
  have hval : (rollback ops (st.plus ops)).semval = st.semval := by
    funext n
    rw [rollback_semval]
    exact BitVec.add_sub_cancel _ _
  have hundo := rollback_undos ops (st.plus ops)
  generalize rollback ops (st.plus ops) = r at *
  obtain ⟨semval, semncnt, semzcnt, sempid, semOtime, undos⟩ := r
  obtain rfl := hval
  obtain rfl := hundo
  obtain rfl := h1
  obtain rfl := h2
  obtain rfl := h3
  obtain rfl := h4
  rfl

theorem store_load (s : Sys) (a : Nat) : s.store a ((s.heap a).load s.undos) = s := by
  have hcell : ({ s.heap a with
      semval := ((s.heap a).load s.undos).semval
      semncnt := ((s.heap a).load s.undos).semncnt
      semzcnt := ((s.heap a).load s.undos).semzcnt
      sempid := ((s.heap a).load s.undos).sempid
      semOtime := ((s.heap a).load s.undos).semOtime } : Semid) = s.heap a := rfl
  rw [Sys.store, hcell, Function.update_eq_self]
  rfl

/-! ## The ways a pass can end -/

/-- The state a vector that went through leaves, before any wakeup. -/
def Sys.afterPass (s : Sys) (pr ix a : Nat) (sops : List Sembuf) (now : Nat) (us : Undos) : Sys :=
  { s.store a { ((s.heap a).load s.undos).plus sops with
      sempid := sops.foldl (fun pid op => Function.update pid op.semNum.toNat pr) (s.heap a).sempid
      semOtime := now
      undos := us } with log := .semop pr ix sops :: s.log }

/-- The state of a process that has gone to sleep. -/
def Sys.afterSleep (s : Sys) (pr : Nat) (id : BitVec 32) (a : Nat) (sops : List Sembuf)
    (op : Sembuf) : Sys :=
  { s.store a (count ((s.heap a).load s.undos) op 1) with
    sleepers := { pr := pr, id := id, sops := sops, sopptr := op, semaptr := a,
                  born := (s.heap a).born, woken := false } :: s.sleepers }

inductive PassSpec (info : Seminfo) (s : Sys) (pr : Nat) (id : BitVec 32) (a : Nat)
    (sops : List Sembuf) (now : Nat) : Sys × Reply → Prop where
  | tooBig {k : Nat} {op : Sembuf} (hop : sops[k]? = some op)
      (hbig : (s.heap a).nsems ≤ op.semNum.toNat)
      (happ : Applies (s.heap a).nsems (s.heap a).semval (sops.take k)) :
      PassSpec info s pr id a sops now
        (s.store a (((s.heap a).load s.undos).plus (sops.take k)), .failed .efbig)
  | refused {e : Errno} (happ : Applies (s.heap a).nsems (s.heap a).semval sops) :
      PassSpec info s pr id a sops now (s, .failed e)
  | eagain : PassSpec info s pr id a sops now (s, .failed .eagain)
  | asleep {k : Nat} {op : Sembuf} (hop : sops[k]? = some op)
      (hin : op.semNum.toNat < (s.heap a).nsems)
      (happ : Applies (s.heap a).nsems (s.heap a).semval (sops.take k))
      (hno : ¬Goes (s.heap a).nsems
        ((s.heap a).semval op.semNum.toNat + delta op.semNum.toNat (sops.take k)) op) :
      PassSpec info s pr id a sops now (s.afterSleep pr id a sops op, .asleep)
  | done {us : Undos} {w u : Bool} (happ : Applies (s.heap a).nsems (s.heap a).semval sops)
      (hscan : scan (s.heap a).nsems sops 0 ((s.heap a).load s.undos) false false =
        .through (((s.heap a).load s.undos).plus sops) w u)
      (hrec : recordUndos (semopCall info s pr id a sops now) sops 0 s.undos .null = .all us) :
      PassSpec info s pr id a sops now
        (if w then wakeup (s.afterPass pr (ipcidToIx id) a sops now us) (ipcidToIx id)
          else s.afterPass pr (ipcidToIx id) a sops now us, .done)

theorem any_undoes {ops : List Sembuf} {u : Bool}
    (h : (∃ op ∈ ops, op.undoes = true) → u = true) (hu : u = false) :
    ops.any Sembuf.undoes = false := by
  rw [Bool.eq_false_iff]
  intro hany
  obtain ⟨op, hop, hundo⟩ := List.any_eq_true.mp hany
  rw [h ⟨op, hop, hundo⟩] at hu
  cases hu

theorem pass_spec {info : Seminfo} {s : Sys} {pr : Nat} {id : BitVec 32} {a : Nat}
    {sops : List Sembuf} {now : Nat} {r : Sys × Reply}
    (h : pass info s pr id a sops now = some r) : PassSpec info s pr id a sops now r := by
  have hspec := scan_spec (s.heap a).nsems sops 0 ((s.heap a).load s.undos) false false
  have hrest := scan_sameRest (s.heap a).nsems sops 0 ((s.heap a).load s.undos) false false
  have hnsems : (semopCall info s pr id a sops now).nsems = (s.heap a).nsems := rfl
  simp only [pass, hnsems] at h
  cases hscan : scan (s.heap a).nsems sops 0 ((s.heap a).load s.undos) false false with
  | tooBig st =>
      rw [hscan] at h hspec hrest
      cases hspec with
      | tooBig happ hop hbig hst =>
          obtain rfl := Option.some.inj h
          rw [hst.eq_plus hrest]
          exact .tooBig hop hbig happ
  | blocked st i op =>
      rw [hscan] at h hspec hrest
      cases hspec with
      | @blocked _ k _ happ hop hin hno hst =>
          rw [hst.eq_plus hrest, Nat.zero_add] at h
          simp only [rollback_plus] at h
          split at h
          · obtain rfl := Option.some.inj h
            rw [store_load]
            exact .eagain
          · obtain rfl := Option.some.inj h
            exact .asleep hop hin happ hno
  | through st w u =>
      have hdo : (∃ op ∈ sops, op.undoes = true) → u = true :=
        fun he => scan_doUndos sops hscan (.inl he)
      rw [hscan] at h hspec hrest
      cases hspec with
      | through happ hst =>
          rw [hst.eq_plus hrest] at h hscan
          cases u with
          | false =>
              obtain ⟨hrec, -, -⟩ := recordUndos_none (c := semopCall info s pr id a sops now)
                (any_undoes hdo rfl) 0 s.undos .null
              obtain rfl := Option.some.inj h
              exact .done happ hscan hrec
          | true =>
              have hsops : (semopCall info s pr id a sops now).sops = sops := rfl
              have hundos : (((s.heap a).load s.undos).plus sops).undos = s.undos := rfl
              simp only [finish, if_true, hsops, hundos] at h
              cases hrec : recordUndos (semopCall info s pr id a sops now) sops 0 s.undos .null with
              | all us =>
                  rw [hrec] at h
                  obtain rfl := Option.some.inj h
                  exact .done happ hscan hrec
              | fault =>
                  rw [hrec] at h
                  cases h
              | refused us suptr i e =>
                  rw [hrec] at h
                  simp only at h
                  by_cases hi : i = 0
                  · -- nothing was recorded, and the vector is taken back
                    subst hi
                    obtain rfl := recordUndos_zero hrec
                    rw [if_neg (by decide)] at h
                    have hsame : rollback sops { ((s.heap a).load s.undos).plus sops with
                        undos := s.undos } = (s.heap a).load s.undos := rollback_plus _ sops
                    simp only [hsame, store_load] at h
                    obtain rfl := Option.some.inj h
                    exact .refused happ
                  · rw [if_pos hi] at h
                    cases hroll : rollbackUndos (semopCall info s pr id a sops now) sops.length
                        (BitVec.ofNat 64 i - 1) us suptr with
                    | done us' => exact absurd hroll (rollbackUndos_ne_done _ _ _ _ us')
                    | fault => rw [hroll] at h; cases h
                    | panic => rw [hroll] at h; cases h
                    | outside => rw [hroll] at h; cases h
                    | running => rw [hroll] at h; cases h

/-! ## What no call changes -/

/-- Slots, and what does not change in a set while it lives. -/
structure SameSets (s s' : Sys) : Prop where
  sema : s'.sema = s.sema
  nsems : ∀ a, (s'.heap a).nsems = (s.heap a).nsems
  seq : ∀ a, (s'.heap a).seq = (s.heap a).seq
  born : ∀ a, (s'.heap a).born = (s.heap a).born

theorem SameSets.refl (s : Sys) : SameSets s s := ⟨rfl, fun _ => rfl, fun _ => rfl, fun _ => rfl⟩

theorem SameSets.trans {s s' s'' : Sys} (h : SameSets s s') (h' : SameSets s' s'') :
    SameSets s s'' where
  sema := h'.sema.trans h.sema
  nsems := fun a => (h'.nsems a).trans (h.nsems a)
  seq := fun a => (h'.seq a).trans (h.seq a)
  born := fun a => (h'.born a).trans (h.born a)

/-- A set is written back, or one of its values. -/
theorem SameSets.of_update {s s' : Sys} {a : Nat} {m : Semid} (hsema : s'.sema = s.sema)
    (hheap : s'.heap = Function.update s.heap a m)
    (hm : m.nsems = (s.heap a).nsems ∧ m.seq = (s.heap a).seq ∧ m.born = (s.heap a).born) :
    SameSets s s' := by
  have hcell (b : Nat) : (s'.heap b) = if b = a then m else s.heap b := by
    rw [hheap, Function.update_apply]
  refine ⟨hsema, fun b => ?_, fun b => ?_, fun b => ?_⟩
  · rw [hcell]; split
    · rename_i hb; rw [hb, hm.1]
    · rfl
  · rw [hcell]; split
    · rename_i hb; rw [hb, hm.2.1]
    · rfl
  · rw [hcell]; split
    · rename_i hb; rw [hb, hm.2.2]
    · rfl

theorem sameSets_store (s : Sys) (a : Nat) (st : State) : SameSets s (s.store a st) :=
  .of_update rfl rfl ⟨rfl, rfl, rfl⟩

theorem sameSets_putVal (s : Sys) (a n : Nat) (v : BitVec 16) : SameSets s (s.putVal a n v) :=
  .of_update rfl rfl ⟨rfl, rfl, rfl⟩

theorem sameSets_wakeup (s : Sys) (ix : Nat) : SameSets s (wakeup s ix) :=
  ⟨rfl, fun _ => rfl, fun _ => rfl, fun _ => rfl⟩

theorem PassSpec.sameSets {info : Seminfo} {s : Sys} {pr : Nat} {id : BitVec 32} {a : Nat}
    {sops : List Sembuf} {now : Nat} {r : Sys × Reply} (h : PassSpec info s pr id a sops now r) :
    SameSets s r.1 := by
  cases h with
  | tooBig => exact sameSets_store ..
  | refused => exact .refl s
  | eagain => exact .refl s
  | asleep => exact .of_update rfl rfl ⟨rfl, rfl, rfl⟩
  | done =>
      split
      · exact .of_update rfl rfl ⟨rfl, rfl, rfl⟩
      · exact .of_update rfl rfl ⟨rfl, rfl, rfl⟩

/-! ## The other calls -/

section Calls

variable {info : Seminfo} {s s' : Sys} {id : BitVec 32} {r : Reply}

theorem findSet_some {a : Nat} (h : findSet info s id = some a) :
    ipcidToIx id < info.semmni ∧ s.sema (ipcidToIx id) = some a ∧ (s.heap a).seq = ipcidToSeq id := by
  rw [findSet] at h
  split at h
  · cases h
  · rename_i hlt
    split at h
    · cases h
    · rename_i b hb
      split at h
      · rename_i hseq
        obtain rfl := Option.some.inj h
        exact ⟨Nat.lt_of_not_le hlt, hb, hseq⟩
      · cases h

/-- The state after a set has been made in a slot. -/
def Sys.made' (s : Sys) (ix nsems a : Nat) : Sys :=
  { s with
    heap := Function.update s.heap a
      { seq := nextSeq s ix, nsems := nsems, semval := fun _ => 0, semncnt := fun _ => 0,
        semzcnt := fun _ => 0, sempid := fun _ => 0, semOtime := 0, born := s.made }
    sema := Function.update s.sema ix (some a)
    semseqs := Function.update s.semseqs ix (nextSeq s ix)
    semtot := s.semtot + nsems
    made := s.made + 1
    log := .set ix none :: s.log }

/-- A new set is in a free slot and in memory that no other set has. -/
theorem semget_cases {nsems a : Nat} (h : semget info s nsems a = some (s', r)) :
    s' = s ∨ ∃ ix, freeSlot info s = some ix ∧ ix < info.semmni ∧ s.sema ix = none ∧
      (∀ j, j < info.semmni → s.sema j ≠ some a) ∧ s' = s.made' ix nsems a := by
  rw [semget] at h
  split at h
  · exact .inl (Prod.mk.inj (Option.some.inj h)).1.symm
  split at h
  · exact .inl (Prod.mk.inj (Option.some.inj h)).1.symm
  split at h
  · exact .inl (Prod.mk.inj (Option.some.inj h)).1.symm
  · rename_i ix hix
    split at h
    · cases h
    · rename_i hfree
      have hmem := List.mem_of_find?_eq_some hix
      have hnone := List.find?_some hix
      refine .inr ⟨ix, hix, List.mem_range.mp hmem, Option.isNone_iff_eq_none.mp hnone, ?_,
        (Prod.mk.inj (Option.some.inj h)).1.symm⟩
      intro j hj hsome
      refine hfree (List.any_eq_true.mpr ⟨j, List.mem_range.mpr hj, decide_eq_true hsome⟩)

/-- The state after `SETVAL`. -/
def Sys.afterSetval (s : Sys) (ix a n : Nat) (v : BitVec 16) : Sys :=
  wakeup { s.putVal a n v with
    undos := semundoClear s.undos ix n
    log := .set ix (some n) :: s.log } ix

theorem setval_cases (info : Seminfo) (s : Sys) (id : BitVec 32) (semnum val : Int)
    (ipcperm : Option Errno) :
    ((setval info s id semnum val ipcperm).1 = s ∧
      (setval info s id semnum val ipcperm).2 ≠ .done) ∨ ∃ a n : Nat, findSet info s id = some a ∧
      semnum = n ∧ n < (s.heap a).nsems ∧ val ≤ semvmx ∧
      setval info s id semnum val ipcperm =
        (s.afterSetval (ipcidToIx id) a n (BitVec.ofInt 16 val), .done) := by
  rw [setval]
  cases hfind : findSet info s id with
  | none => exact .inl ⟨rfl, nofun⟩
  | some a =>
      cases ipcperm with
      | some e => exact .inl ⟨rfl, nofun⟩
      | none =>
          dsimp only
          split
          · exact .inl ⟨rfl, nofun⟩
          · rename_i hnum
            split
            · exact .inl ⟨rfl, nofun⟩
            · rename_i hval
              push Not at hnum hval
              obtain ⟨n, rfl⟩ := Int.eq_ofNat_of_zero_le hnum.1
              exact .inr ⟨a, n, rfl, rfl, by exact_mod_cast hnum.2, hval, rfl⟩

/-- The state after `SETALL`. -/
def Sys.afterSetall (s : Sys) (ix a : Nat) (array : Nat → Option (BitVec 16)) : Sys :=
  wakeup { s with
    heap := Function.update s.heap a { s.heap a with
      semval := fun n => if n < (s.heap a).nsems then (array n).getD 0 else (s.heap a).semval n }
    undos := semundoClear s.undos ix (-1)
    log := .set ix none :: s.log } ix

theorem copyinAll_ok {array : Nat → Option (BitVec 16)} {n : Nat} (h : copyinAll array n = .ok ()) :
    ∀ i < n, ∃ v, array i = some v ∧ (v.toNat : Int) ≤ semvmx := by
  induction n with
  | zero => exact fun i hi => absurd hi (Nat.not_lt_zero i)
  | succ n ih =>
      intro i hi
      rw [copyinAll] at h
      split at h
      · cases h
      · rename_i hprev
        split at h
        · cases h
        · rename_i v hv
          split at h
          · cases h
          · rename_i hle
            rcases Nat.lt_succ_iff_lt_or_eq.mp hi with hlt | rfl
            · exact ih hprev i hlt
            · exact ⟨v, hv, Int.not_lt.mp hle⟩

theorem copyinAll_error {array : Nat → Option (BitVec 16)} {n : Nat} {r : Reply}
    (h : copyinAll array n = .error r) : r ≠ .done := by
  induction n with
  | zero => cases h
  | succ n ih =>
      rw [copyinAll] at h
      split at h
      · rename_i r' hprev
        obtain rfl := Except.error.inj h
        exact ih hprev
      · split at h
        · obtain rfl := Except.error.inj h
          exact nofun
        · split at h
          · obtain rfl := Except.error.inj h
            exact nofun
          · cases h

theorem setall_cases (info : Seminfo) (s : Sys) (id : BitVec 32)
    (array : Nat → Option (BitVec 16)) (ipcperm : Option Errno) :
    ((setall info s id array ipcperm).1 = s ∧ (setall info s id array ipcperm).2 ≠ .done) ∨ ∃ a, findSet info s id = some a ∧
      (∀ i < (s.heap a).nsems, ∃ v, array i = some v ∧ (v.toNat : Int) ≤ semvmx) ∧
      setall info s id array ipcperm = (s.afterSetall (ipcidToIx id) a array, .done) := by
  rw [setall]
  cases hfind : findSet info s id with
  | none => exact .inl ⟨rfl, nofun⟩
  | some a =>
      cases ipcperm with
      | some e => exact .inl ⟨rfl, nofun⟩
      | none =>
          dsimp only
          cases hcopy : copyinAll array (s.heap a).nsems with
          | error r => exact .inl ⟨rfl, copyinAll_error hcopy⟩
          | ok u => exact .inr ⟨a, rfl, copyinAll_ok hcopy, rfl⟩

/-- The state after `IPC_RMID`. -/
def Sys.afterRmid (s : Sys) (ix a : Nat) : Sys :=
  wakeup { s with
    sema := Function.update s.sema ix none
    semtot := s.semtot - (s.heap a).nsems
    undos := semundoClear s.undos ix (-1)
    log := .set ix none :: s.log } ix

theorem rmid_cases (info : Seminfo) (s : Sys) (id : BitVec 32) (ipcperm : Option Errno) :
    (rmid info s id ipcperm).1 = s ∨ ∃ a, findSet info s id = some a ∧
      rmid info s id ipcperm = (s.afterRmid (ipcidToIx id) a, .done) := by
  rw [rmid]
  cases hfind : findSet info s id with
  | none => exact .inl rfl
  | some a =>
      cases ipcperm with
      | some e => exact .inl rfl
      | none => exact .inr ⟨a, rfl, rfl⟩

/-- A call of `semop` does nothing, or makes a pass over the set it names. -/
theorem semopStart_cases {pr : Nat} {sops : List Sembuf} {ipcperm copyin : Option Errno} {now : Nat}
    (h : semopStart info s pr id sops ipcperm copyin now = some (s', r)) :
    (s' = s ∧ (r = .done → sops = [])) ∨ ∃ a, findSet info s id = some a ∧ pass info s pr id a sops now = some (s', r) := by
  have failed {e : Errno} (he : some (s, Reply.failed e) = some (s', r)) :
      s' = s ∧ (r = .done → sops = []) := by
    obtain ⟨rfl, rfl⟩ := Prod.mk.inj (Option.some.inj he)
    exact ⟨rfl, nofun⟩
  rw [semopStart] at h
  cases hfind : findSet info s id with
  | none =>
      rw [hfind] at h
      exact .inl (failed h)
  | some a =>
      rw [hfind] at h
      cases ipcperm with
      | some e => exact .inl (failed h)
      | none =>
          dsimp only at h
          split at h
          · rename_i hlen
            obtain ⟨h1, -⟩ := Prod.mk.inj (Option.some.inj h)
            exact .inl ⟨h1.symm, fun _ => List.length_eq_zero_iff.mp hlen⟩
          split at h
          · exact .inl (failed h)
          cases copyin with
          | some e => exact .inl (failed h)
          | none => exact .inr ⟨a, rfl, h⟩

/-- The state in which a process that was woken goes on: it is no longer counted. -/
def Sys.awake (s : Sys) (i : Nat) (p : Sleeper) : Sys :=
  let t := { s with sleepers := s.sleepers.eraseIdx i }
  if (s.heap p.semaptr).born = p.born then
    t.store p.semaptr (count ((s.heap p.semaptr).load s.undos) p.sopptr (-1))
  else t

/-- A process that wakes finds its set gone, was interrupted, or makes another pass. -/
theorem semopResume_cases {i : Nat} {intr : Bool} {now : Nat}
    (h : semopResume info s i intr now = some (s', r)) :
    ∃ p, s.sleepers[i]? = some p ∧ (p.woken = true ∨ intr = true) ∧
    (((s.sema (ipcidToIx p.id) = none ∨ (s.heap p.semaptr).seq ≠ ipcidToSeq p.id) ∧
        s' = { s with sleepers := s.sleepers.eraseIdx i } ∧ r = .eidrm) ∨
      (s.sema (ipcidToIx p.id) ≠ none ∧ (s.heap p.semaptr).seq = ipcidToSeq p.id ∧
        ((intr = true ∧ s' = s.awake i p ∧ r = .failed .eintr) ∨
          (intr = false ∧ pass info (s.awake i p) p.pr p.id p.semaptr p.sops now = some (s', r))))) := by
  rw [semopResume] at h
  cases hp : s.sleepers[i]? with
  | none =>
      rw [hp] at h
      cases h
  | some p =>
      rw [hp] at h
      dsimp only at h
      split at h
      · cases h
      · rename_i hwake
        have hwake' : p.woken = true ∨ intr = true := by
          cases hw : p.woken
          · cases hi : intr
            · exact absurd (by rw [hw, hi]; rfl) hwake
            · exact .inr rfl
          · exact .inl rfl
        refine ⟨p, rfl, hwake', ?_⟩
        split at h
        · rename_i hgone
          obtain ⟨h1, h2⟩ := Prod.mk.inj (Option.some.inj h)
          exact .inl ⟨hgone, h1.symm, h2.symm⟩
        · rename_i hhere
          push Not at hhere
          refine .inr ⟨hhere.1, hhere.2, ?_⟩
          cases intr with
          | true =>
              obtain ⟨h1, h2⟩ := Prod.mk.inj (Option.some.inj h)
              exact .inl ⟨rfl, h1.symm, h2.symm⟩
          | false => exact .inr ⟨rfl, h⟩

theorem awake_sameSets (s : Sys) (i : Nat) (p : Sleeper) : SameSets s (s.awake i p) := by
  rw [Sys.awake]
  split
  · exact .of_update rfl rfl ⟨rfl, rfl, rfl⟩
  · exact ⟨rfl, fun _ => rfl, fun _ => rfl, fun _ => rfl⟩

@[simp] theorem awake_sleepers (s : Sys) (i : Nat) (p : Sleeper) :
    (s.awake i p).sleepers = s.sleepers.eraseIdx i := by
  rw [Sys.awake]
  split <;> rfl

theorem awake_undos (s : Sys) (i : Nat) (p : Sleeper) : (s.awake i p).undos = s.undos := by
  rw [Sys.awake]
  split
  · rw [Sys.store, count]
    split <;> rfl
  · rfl

@[simp] theorem awake_log (s : Sys) (i : Nat) (p : Sleeper) : (s.awake i p).log = s.log := by
  rw [Sys.awake]
  split <;> rfl

theorem count_semval (st : State) (op : Sembuf) (d : BitVec 16) :
    (count st op d).semval = st.semval := by
  rw [count]
  split <;> rfl

theorem awake_semval (s : Sys) (i : Nat) (p : Sleeper) (a : Nat) :
    ((s.awake i p).heap a).semval = (s.heap a).semval := by
  rw [Sys.awake]
  split
  · simp only [Sys.store, count_semval, Function.update_apply]
    split
    · rename_i ha
      rw [ha]
      rfl
    · rfl
  · rfl

end Calls

end Obsd.Semop
