import Obsd.SemUndoRuns

/-!
# The values of semaphores over whole runs

Values and undo totals are fields of 16 bits that are added to as they are.
Only `SETVAL` and `SETALL` compare with `semvmx`, and `SETVAL` only from
above. `RangeGuard` says what would have to be checked elsewhere: that no
operation, as far as a vector is applied, and no exit takes a value over
`semvmx`, and that no negative value is set. In runs that meet it values stay
in range and every change is by the amount asked for (`Exact`), the undo
totals included.
-/

namespace Obsd.Semop

/-! ## Integers and words -/

/-- What operations add to a semaphore, as a number. -/
def intDelta (n : Nat) : List Sembuf → Int
  | [] => 0
  | op :: rest => (if op.semNum.toNat = n then op.semOp.toInt else 0) + intDelta n rest

theorem intDelta_append (n : Nat) (ops ops' : List Sembuf) :
    intDelta n (ops ++ ops') = intDelta n ops + intDelta n ops' := by
  induction ops with
  | nil => simp [intDelta]
  | cons op ops ih => rw [List.cons_append, intDelta, intDelta, ih, Int.add_assoc]

theorem delta_eq_ofInt (n : Nat) (ops : List Sembuf) : delta n ops = BitVec.ofInt 16 (intDelta n ops) := by
  induction ops with
  | nil => rfl
  | cons op ops ih =>
      rw [delta, intDelta, BitVec.ofInt_add, ih]
      split
      · rw [BitVec.ofInt_toInt]
      · rfl

/-- A word that has been added to without overflow. -/
theorem toNat_add_ofInt {v : BitVec 16} {d : Int} (h0 : 0 ≤ (v.toNat : Int) + d)
    (h1 : (v.toNat : Int) + d ≤ semvmx) : ((v + BitVec.ofInt 16 d).toNat : Int) = v.toNat + d := by
  have hv : v = BitVec.ofInt 16 v.toNat := by
    rw [BitVec.ofInt_natCast, BitVec.ofNat_toNat, BitVec.setWidth_eq]
  obtain ⟨m, hm⟩ := Int.eq_ofNat_of_zero_le h0
  have hlt : m < 65536 := by
    have : (m : Int) ≤ 32767 := hm ▸ h1
    omega
  have hsum : v + BitVec.ofInt 16 d = BitVec.ofNat 16 m := by
    conv_lhs => rw [hv]
    rw [← BitVec.ofInt_add, hm, BitVec.ofInt_natCast]
  rw [hsum, BitVec.toNat_ofNat, Nat.mod_eq_of_lt hlt, hm]

/-- As far as a vector can be applied it takes no value over the maximum. -/
def Bounded (nsems : Nat) (semval : Nat → BitVec 16) (sops : List Sembuf) : Prop :=
  ∀ k n, Applies nsems semval (sops.take k) →
    ((semval n).toNat : Int) + intDelta n (sops.take k) ≤ semvmx

theorem Applies.take {nsems : Nat} {semval : Nat → BitVec 16} {ops : List Sembuf}
    (h : Applies nsems semval ops) (k : Nat) : Applies nsems semval (ops.take k) := by
  intro j op hj
  have hjk : j < k := by
    by_contra hle
    rw [List.getElem?_eq_none (by rw [List.length_take]; omega)] at hj
    cases hj
  rw [List.getElem?_take, if_pos hjk] at hj
  rw [List.take_take, Nat.min_eq_left (Nat.le_of_lt hjk)]
  exact h j op hj

/-- As far as a vector can be applied the words of a semaphore that stays in range hold the
sums. -/
theorem Applies.exact {nsems : Nat} {semval : Nat → BitVec 16} {sops : List Sembuf} {n : Nat} :
    ∀ k, (∀ j ≤ k, ((semval n).toNat : Int) + intDelta n (sops.take j) ≤ semvmx) →
      Applies nsems semval (sops.take k) →
      ((semval n + delta n (sops.take k)).toNat : Int) =
        (semval n).toNat + intDelta n (sops.take k) := by
  intro k
  induction k with
  | zero =>
      intro _ _
      rw [List.take_zero, delta, intDelta, BitVec.add_zero, Int.add_zero]
  | succ k ih =>
      intro hb happ
      have hb' : ∀ j ≤ k, ((semval n).toNat : Int) + intDelta n (sops.take j) ≤ semvmx :=
        fun j hj => hb j (Nat.le_succ_of_le hj)
      cases hop : sops[k]? with
      | none =>
          have hlen := List.getElem?_eq_none_iff.mp hop
          have hsame : sops.take (k + 1) = sops.take k := by
            rw [List.take_of_length_le (by omega), List.take_of_length_le hlen]
          rw [hsame] at happ ⊢
          exact ih hb' happ
      | some op =>
          have htake : sops.take (k + 1) = sops.take k ++ [op] := by
            rw [List.take_add_one, hop]
            rfl
          have happ' : Applies nsems semval (sops.take k) := by
            have h := happ.take k
            rwa [List.take_take, Nat.min_eq_left (Nat.le_succ k)] at h
          have hgoes := happ.goes (Nat.lt_succ_self k) hop
          have hsum : intDelta n (sops.take (k + 1)) = intDelta n (sops.take k) +
              if op.semNum.toNat = n then op.semOp.toInt else 0 := by
            rw [htake, intDelta_append, intDelta, intDelta, Int.add_zero]
          rw [delta_eq_ofInt]
          refine toNat_add_ofInt ?_ (hb (k + 1) le_rfl)
          rw [hsum]
          have hih := ih hb' happ'
          split
          · rename_i hn
            rw [← hn] at hih ⊢
            by_cases hneg : op.semOp.toInt < 0
            · have := hgoes.down hneg
              omega
            · omega
          · omega

theorem Bounded.exact {nsems : Nat} {semval : Nat → BitVec 16} {sops : List Sembuf}
    (hb : Bounded nsems semval sops) (k n : Nat) (happ : Applies nsems semval (sops.take k)) :
    ((semval n + delta n (sops.take k)).toNat : Int) =
      (semval n).toNat + intDelta n (sops.take k) := by
  refine happ.exact k fun j hj => hb j n ?_
  have h := happ.take j
  rwa [List.take_take, Nat.min_eq_left hj] at h

/-! ## What is asked for -/

/-- The values of the set in memory `a` change by `d` and no others do. -/
def Changed (s s' : Sys) (a : Nat) (d : Nat → Int) : Prop :=
  (∀ n, (((s'.heap a).semval n).toNat : Int) = ((s.heap a).semval n).toNat + d n) ∧
    ∀ b, b ≠ a → (s'.heap b).semval = (s.heap b).semval

/-- A call of `semop` applies its vector and records the entries, or stops before an operation
on a semaphore that is not there, or does nothing. -/
def PassExact (s s' : Sys) (pr ix a : Nat) (sops : List Sembuf) (r : Reply) : Prop :=
  ∃ k, Changed s s' a (fun n => intDelta n (sops.take k)) ∧ (r = .done → k = sops.length) ∧
    (r ≠ .done → r ≠ .failed .efbig → k = 0) ∧
    ∀ p j n, adjSum (ents s'.undos p) j n = adjSum (ents s.undos p) j n -
      if r = .done ∧ p = pr ∧ (ix : Int) = j then undoSum n sops else 0

/-- What a call does to the values and the undo totals, in numbers. -/
def Exact (s : Sys) (e : Event) (r : Reply) (s' : Sys) : Prop :=
  match e with
  | .semop pr id sops _ _ _ => ∀ a, s.sema (ipcidToIx id) = some a →
    PassExact s s' pr (ipcidToIx id) a sops r
  | .resume i _ _ => ∀ p, s.sleepers[i]? = some p →
    PassExact s s' p.pr (ipcidToIx p.id) p.semaptr p.sops r
  | .setval id semnum val _ => ∀ a, s.sema (ipcidToIx id) = some a →
    Changed s s' a fun n =>
      if r = .done ∧ semnum = n then val - ((s.heap a).semval n).toNat else 0
  | .setall id array _ => ∀ a, s.sema (ipcidToIx id) = some a →
    Changed s s' a fun n => if r = .done ∧ n < (s.heap a).nsems
      then ((array n).getD 0).toNat - ((s.heap a).semval n).toNat else 0
  | .exit pr => ∀ ix a, s.sema ix = some a → ∀ n, (((s'.heap a).semval n).toNat : Int) =
      max 0 (((s.heap a).semval n).toNat + adjSum (ents s.undos pr) ix n)
  | .semget _ _ => ∀ ix a, s.sema ix = some a → (s'.heap a).semval = (s.heap a).semval
  | .rmid _ _ => ∀ a, (s'.heap a).semval = (s.heap a).semval

/-- What would have to be checked, beside what concerns the undo structures. -/
def RangeGuard (info : Seminfo) (s : Sys) (e : Event) : Prop :=
  UndoGuard info s e ∧
  match e with
  | .semop _ id sops _ _ _ => ∀ a, findSet info s id = some a →
    Bounded (s.heap a).nsems (s.heap a).semval sops
  | .resume i _ _ => ∀ p, s.sleepers[i]? = some p →
    Bounded (s.heap p.semaptr).nsems (s.heap p.semaptr).semval p.sops
  | .setval _ _ val _ => 0 ≤ val
  | .exit pr => ∀ ix a, s.sema ix = some a → ∀ n,
    (((s.heap a).semval n).toNat : Int) + adjSum (ents s.undos pr) ix n ≤ semvmx
  | _ => True

structure RangeInv (info : Seminfo) (s : Sys) : Prop where
  undo : UndoInv info s
  /-- No two slots share a set. -/
  inj : ∀ i j a, s.sema i = some a → s.sema j = some a → i = j
  bound : ∀ ix a, s.sema ix = some a → ∀ n, (((s.heap a).semval n).toNat : Int) ≤ semvmx

theorem start_rangeInv (info : Seminfo) : RangeInv info Sys.start where
  undo := start_undoInv info
  inj := fun _ _ _ h => by cases h
  bound := fun _ _ h => by cases h

section Steps

variable {info : Seminfo} {s s' : Sys}

theorem Changed.of_eq {a : Nat} (h : ∀ b, (s'.heap b).semval = (s.heap b).semval) :
    Changed s s' a fun _ => 0 :=
  ⟨fun n => by rw [h, Int.add_zero], fun b _ => h b⟩

/-- One set was written back. -/
theorem Changed.of_update {a : Nat} {m : Semid} {d : Nat → Int}
    (hheap : s'.heap = Function.update s.heap a m)
    (h : ∀ n, ((m.semval n).toNat : Int) = ((s.heap a).semval n).toNat + d n) :
    Changed s s' a d := by
  refine ⟨fun n => ?_, fun b hb => ?_⟩
  · rw [hheap, Function.update_self]
    exact h n
  · rw [hheap, Function.update_of_ne hb]

theorem RangeInv.of_sameSets (h : RangeInv info s) (hsets : SameSets s s') (hundo : UndoInv info s')
    (hbound : ∀ ix a, s.sema ix = some a → ∀ n, (((s'.heap a).semval n).toNat : Int) ≤ semvmx) :
    RangeInv info s' where
  undo := hundo
  inj := fun i j a hi hj => h.inj i j a (hsets.sema ▸ hi) (hsets.sema ▸ hj)
  bound := fun ix a ha => hbound ix a (hsets.sema ▸ ha)

/-- The set in memory `a` is in range afterwards, and the others have not changed. -/
theorem RangeInv.of_changed (h : RangeInv info s) (hsets : SameSets s s') (hundo : UndoInv info s')
    {a : Nat} {d : Nat → Int} (hc : Changed s s' a d)
    (hle : ∀ n, (((s.heap a).semval n).toNat : Int) + d n ≤ semvmx) : RangeInv info s' := by
  refine h.of_sameSets hsets hundo fun ix b hb n => ?_
  by_cases hab : b = a
  · rw [hab, hc.1]
    exact hle n
  · rw [hc.2 b hab]
    exact h.bound ix b hb n

/-! ## `semop` -/

/-- The part of `PassExact` that is about undo totals, when nothing was recorded. -/
theorem adjSum_unrecorded {r : Reply} (hundo : s'.undos = s.undos) (hr : r ≠ .done) (pr ix : Nat)
    (sops : List Sembuf) (p : Nat) (j : Int) (n : Nat) :
    adjSum (ents s'.undos p) j n = adjSum (ents s.undos p) j n -
      if r = .done ∧ p = pr ∧ (ix : Int) = j then undoSum n sops else 0 := by
  rw [hundo, if_neg (fun hc => hr hc.1), Int.sub_zero]

theorem PassExact.of_same {pr ix a : Nat} {sops : List Sembuf} {r : Reply} (hr : r ≠ .done)
    (hval : ∀ b, (s'.heap b).semval = (s.heap b).semval) (hundo : s'.undos = s.undos) :
    PassExact s s' pr ix a sops r :=
  ⟨0, .of_eq hval, fun h => absurd h hr, fun _ _ => rfl, adjSum_unrecorded hundo hr pr ix sops⟩

theorem store_semval {a : Nat} {st : State} (h : st.semval = (s.heap a).semval) (b : Nat) :
    ((s.store a st).heap b).semval = (s.heap b).semval := by
  simp only [Sys.store, Function.update_apply]
  split
  · rename_i hb
    rw [hb]
    exact h
  · rfl

theorem RangeInv.pass (h : RangeInv info s) {pr : Nat} {id : BitVec 32} {a : Nat}
    {sops : List Sembuf} {now : Nat} {r : Sys × Reply} (hslot : s.sema (ipcidToIx id) = some a)
    (hfit : PassFits info s pr id a sops)
    (hb : Bounded (s.heap a).nsems (s.heap a).semval sops)
    (hr : PassSpec info s pr id a sops now r) :
    RangeInv info r.1 ∧ PassExact s r.1 pr (ipcidToIx id) a sops r.2 := by
  have hundo := h.undo.pass hslot hfit hr
  have hsets := hr.sameSets
  cases hr with
  | @tooBig k op hop hbig happ =>
      have hc : Changed s (s.store a (((s.heap a).load s.undos).plus (sops.take k))) a
          fun n => intDelta n (sops.take k) := .of_update rfl fun n => hb.exact k n happ
      exact ⟨h.of_changed hsets hundo hc fun n => hb k n happ, k, hc, by simp,
        fun _ hne => absurd rfl hne,
        adjSum_unrecorded (r := .failed .efbig) rfl (by simp) pr (ipcidToIx id) sops⟩
  | refused => exact ⟨h, .of_same (by simp) (fun _ => rfl) rfl⟩
  | eagain => exact ⟨h, .of_same (by simp) (fun _ => rfl) rfl⟩
  | @asleep k op hop hin happ hno =>
      have hval (b : Nat) : ((s.afterSleep pr id a sops op).heap b).semval = (s.heap b).semval :=
        store_semval (count_semval ..) b
      have hus : (s.afterSleep pr id a sops op).undos = s.undos := by
        rw [Sys.afterSleep, Sys.store, count]
        split <;> rfl
      refine ⟨h.of_sameSets hsets hundo fun ix b hix n => ?_, .of_same (by simp) hval hus⟩
      rw [hval]
      exact h.bound ix b hix n
  | @done us w u happ hscan hrec =>
      have happ' : Applies (s.heap a).nsems (s.heap a).semval (sops.take sops.length) := by
        rwa [List.take_length]
      obtain ⟨us', hrec', hres, -⟩ := h.undo.record hslot hfit happ now
      obtain rfl := Record.all.inj (hrec.symm.trans hrec')
      obtain ⟨t, ht⟩ : ∃ t, t = if w then wakeup (s.afterPass pr (ipcidToIx id) a sops now us)
          (ipcidToIx id) else s.afterPass pr (ipcidToIx id) a sops now us := ⟨_, rfl⟩
      have hheap : t.heap = (s.afterPass pr (ipcidToIx id) a sops now us).heap := by
        rw [ht]
        split <;> rfl
      have hus : t.undos = us := by
        rw [ht]
        split <;> rfl
      rw [← ht] at hundo hsets ⊢
      have hc : Changed s t a fun n => intDelta n (sops.take sops.length) :=
        .of_update hheap fun n => by
          rw [← hb.exact _ n happ', List.take_length]
          rfl
      refine ⟨h.of_changed hsets hundo hc fun n => hb _ n happ', sops.length, hc, fun _ => rfl,
        fun hne => absurd rfl hne, fun p j n => ?_⟩
      rw [hus]
      by_cases hp : p = pr
      · subst hp
        rw [hres.sum]
        simp
      · rw [hres.others p hp, if_neg (fun hc => hp hc.2.1), Int.sub_zero]

/-- A process that goes on after its sleep finds the values as they were. -/
theorem PassExact.of_awake {i : Nat} {p : Sleeper} {pr ix a : Nat} {sops : List Sembuf} {r : Reply}
    (h : PassExact (s.awake i p) s' pr ix a sops r) : PassExact s s' pr ix a sops r := by
  obtain ⟨k, hc, h1, h2, h3⟩ := h
  refine ⟨k, ⟨fun n => ?_, fun b hb => ?_⟩, h1, h2, fun q j n => ?_⟩
  · rw [hc.1, awake_semval]
  · rw [hc.2 b hb, awake_semval]
  · rw [h3, awake_undos]

theorem RangeInv.resume (h : RangeInv info s) {i : Nat} {intr : Bool} {now : Nat} {r : Reply}
    (hg : RangeGuard info s (.resume i intr now))
    (hr : semopResume info s i intr now = some (s', r)) :
    RangeInv info s' ∧ Exact s (.resume i intr now) r s' := by
  have hundo := h.undo.resume hg.1 hr
  obtain ⟨p, hp, -, ⟨-, rfl, rfl⟩ | ⟨hslot, -, hrest⟩⟩ := semopResume_cases hr
  · refine ⟨⟨hundo, h.inj, h.bound⟩, fun q hq => ?_⟩
    exact .of_same nofun (fun _ => rfl) rfl
  have hawake : RangeInv info (s.awake i p) := by
    refine h.of_sameSets (awake_sameSets s i p) ?_ fun ix b hb n => ?_
    · refine h.undo.of_same (awake_sameSets s i p) (awake_undos s i p) (awake_log s i p) ?_
      intro q hq
      rw [awake_sleepers] at hq
      exact fromSleepers_eraseIdx s i q hq
    · rw [awake_semval]
      exact h.bound ix b hb n
  rcases hrest with ⟨-, rfl, rfl⟩ | ⟨-, hpass⟩
  · exact ⟨hawake, fun q hq => .of_same nofun (awake_semval s i p) (awake_undos s i p)⟩
  · have hhere : s.sema (ipcidToIx p.id) = some p.semaptr :=
      (h.undo.slots p (List.mem_of_getElem? hp)).resolve_left hslot
    have hfit : PassFits info (s.awake i p) p.pr p.id p.semaptr p.sops := by
      intro happ
      rw [(awake_sameSets s i p).nsems, awake_semval] at happ
      rw [awake_undos]
      exact hg.1 p hp happ
    have hb : Bounded ((s.awake i p).heap p.semaptr).nsems ((s.awake i p).heap p.semaptr).semval
        p.sops := by
      rw [(awake_sameSets s i p).nsems, awake_semval]
      exact hg.2 p hp
    obtain ⟨hinv, hex⟩ := hawake.pass ((awake_sameSets s i p).sema ▸ hhere) hfit hb
      (pass_spec hpass)
    refine ⟨hinv, fun q hq => ?_⟩
    obtain rfl := Option.some.inj (hp.symm.trans hq)
    exact hex.of_awake

/-! ## The other calls -/

theorem RangeInv.setval (h : RangeInv info s) {id : BitVec 32} {semnum val : Int}
    {ipcperm : Option Errno} (hg : RangeGuard info s (.setval id semnum val ipcperm)) :
    RangeInv info (Semop.setval info s id semnum val ipcperm).1 ∧
      Exact s (.setval id semnum val ipcperm) (Semop.setval info s id semnum val ipcperm).2
        (Semop.setval info s id semnum val ipcperm).1 := by
  have hundo := UndoInv.setval h.undo val ipcperm hg.1
  rcases setval_cases info s id semnum val ipcperm with ⟨heq, hne⟩ | ⟨a, n, hfind, rfl, hn, hle, heq⟩
  · rw [heq]
    refine ⟨h, fun a _ => ?_⟩
    simp only [hne, false_and, if_false]
    exact .of_eq fun _ => rfl
  · rw [heq] at hundo ⊢
    have hsets : SameSets s (s.afterSetval (ipcidToIx id) a n (BitVec.ofInt 16 val)) :=
      .of_update rfl rfl ⟨rfl, rfl, rfl⟩
    have hval : ((BitVec.ofInt 16 val).toNat : Int) = val := by
      have h0 := toNat_add_ofInt (v := 0#16) (d := val) (by simpa using hg.2) (by simpa using hle)
      simpa using h0
    have hc : Changed s (s.afterSetval (ipcidToIx id) a n (BitVec.ofInt 16 val)) a fun m =>
        if n = m then val - ((s.heap a).semval m).toNat else 0 := by
      refine .of_update rfl fun m => ?_
      dsimp only
      rw [Function.update_apply]
      by_cases hm : m = n
      · rw [if_pos hm, if_pos hm.symm, hval]
        omega
      · rw [if_neg hm, if_neg (Ne.symm hm), Int.add_zero]
    refine ⟨h.of_changed hsets hundo hc fun m => ?_, fun b hb => ?_⟩
    · have := h.bound _ a (findSet_some hfind).2.1 m
      split <;> omega
    · obtain rfl := Option.some.inj ((findSet_some hfind).2.1.symm.trans hb)
      simp only [true_and, Int.natCast_inj]
      exact hc

theorem RangeInv.setall (h : RangeInv info s) {id : BitVec 32}
    {array : Nat → Option (BitVec 16)} {ipcperm : Option Errno} :
    RangeInv info (Semop.setall info s id array ipcperm).1 ∧
      Exact s (.setall id array ipcperm) (Semop.setall info s id array ipcperm).2
        (Semop.setall info s id array ipcperm).1 := by
  have hundo := UndoInv.setall h.undo id array ipcperm
  rcases setall_cases info s id array ipcperm with ⟨heq, hne⟩ | ⟨a, hfind, harr, heq⟩
  · rw [heq]
    refine ⟨h, fun a _ => ?_⟩
    simp only [hne, false_and, if_false]
    exact .of_eq fun _ => rfl
  · rw [heq] at hundo ⊢
    have hsets : SameSets s (s.afterSetall (ipcidToIx id) a array) :=
      .of_update rfl rfl ⟨rfl, rfl, rfl⟩
    have hc : Changed s (s.afterSetall (ipcidToIx id) a array) a fun m =>
        if m < (s.heap a).nsems then ((array m).getD 0).toNat - ((s.heap a).semval m).toNat
          else 0 := by
      refine .of_update rfl fun m => ?_
      dsimp only
      split
      · omega
      · rw [Int.add_zero]
    refine ⟨h.of_changed hsets hundo hc fun m => ?_, fun b hb => ?_⟩
    · have := h.bound _ a (findSet_some hfind).2.1 m
      split
      · rename_i hm
        obtain ⟨v, hv, hle⟩ := harr m hm
        rw [hv, Option.getD_some]
        omega
      · omega
    · obtain rfl := Option.some.inj ((findSet_some hfind).2.1.symm.trans hb)
      simp only [true_and]
      exact hc

theorem RangeInv.rmid (h : RangeInv info s) {id : BitVec 32} {ipcperm : Option Errno} :
    RangeInv info (Semop.rmid info s id ipcperm).1 ∧
      Exact s (.rmid id ipcperm) (Semop.rmid info s id ipcperm).2
        (Semop.rmid info s id ipcperm).1 := by
  have hundo := UndoInv.rmid h.undo id ipcperm
  rcases rmid_cases info s id ipcperm with heq | ⟨a, -, heq⟩
  · rw [heq]
    exact ⟨h, fun _ => rfl⟩
  · rw [heq] at hundo ⊢
    have hsome {j b : Nat} (hj : (s.afterRmid (ipcidToIx id) a).sema j = some b) :
        s.sema j = some b := by
      have hup : (s.afterRmid (ipcidToIx id) a).sema j = if j = ipcidToIx id then none
          else s.sema j := Function.update_apply ..
      rw [hup] at hj
      split at hj
      · cases hj
      · exact hj
    exact ⟨⟨hundo, fun i j b hi hj => h.inj i j b (hsome hi) (hsome hj),
      fun ix b hb => h.bound ix b (hsome hb)⟩, fun _ => rfl⟩

theorem RangeInv.semget (h : RangeInv info s) {nsems a : Nat} {r : Reply}
    (hg : UndoGuard info s (.semget nsems a)) (hr : Semop.semget info s nsems a = some (s', r)) :
    RangeInv info s' ∧ Exact s (.semget nsems a) r s' := by
  have hundo := h.undo.semget hg.1 hg.2 hr
  rcases semget_cases hr with rfl | ⟨ix, -, -, -, hfree, rfl⟩
  · exact ⟨h, fun _ _ _ => rfl⟩
  have hsema (j : Nat) : (s.made' ix nsems a).sema j = if j = ix then some a else s.sema j :=
    Function.update_apply ..
  have hne {j b : Nat} (hb : s.sema j = some b) : b ≠ a := by
    rintro rfl
    exact hfree j (h.undo.range j b hb) hb
  have hheap {j b : Nat} (hb : s.sema j = some b) : (s.made' ix nsems a).heap b = s.heap b :=
    Function.update_of_ne (hne hb) _ _
  refine ⟨⟨hundo, fun i j b hi hj => ?_, fun j b hj n => ?_⟩, fun j b hb => ?_⟩
  · rw [hsema] at hi hj
    split at hi
    · split at hj
      · rename_i hi' hj'
        exact hi'.trans hj'.symm
      · obtain rfl := Option.some.inj hi
        exact absurd rfl (hne hj)
    · split at hj
      · obtain rfl := Option.some.inj hj
        exact absurd rfl (hne hi)
      · exact h.inj i j b hi hj
  · rw [hsema] at hj
    split at hj
    · obtain rfl := Option.some.inj hj
      have hzero : ((s.made' ix nsems a).heap a).semval n = 0 := by
        change (Function.update s.heap a _ a).semval n = 0
        rw [Function.update_self]
      rw [hzero]
      decide
    · rw [hheap hj]
      exact h.bound j b hj n
  · rw [hheap hb]

/-! ## `semexit` -/

theorem toNat_exitVal {v adjval : BitVec 16} (h : (v.toNat : Int) + adjval.toInt ≤ semvmx) :
    ((exitVal v adjval).toNat : Int) = max 0 (v.toNat + adjval.toInt) := by
  rw [exitVal]
  split
  · rename_i hlow
    rw [max_eq_left (by omega)]
    rfl
  · rename_i hhigh
    have h0 : 0 ≤ (v.toNat : Int) + adjval.toInt := by
      by_contra hneg
      exact hhigh ⟨by omega, by omega⟩
    have hadj := toNat_add_ofInt h0 h
    rw [BitVec.ofInt_toInt] at hadj
    rw [hadj, max_eq_right h0]

/-- What the loop leaves in the semaphores of the sets there are. -/
theorem exitLoop_values : ∀ (ent : List Undo) (s s' : Sys), EntOk ent →
    (∀ i j a, s.sema i = some a → s.sema j = some a → i = j) →
    (∀ u ∈ ent, ∃ ix n a : Nat, u.isAt ix n ∧ s.sema ix = some a ∧ n < (s.heap a).nsems) →
    (∀ ix a, s.sema ix = some a → ∀ n,
      (((s.heap a).semval n).toNat : Int) + adjSum ent ix n ≤ semvmx) →
    exitLoop ent s = some s' →
    ∀ ix a, s.sema ix = some a → ∀ n, (((s'.heap a).semval n).toNat : Int) =
      max 0 (((s.heap a).semval n).toNat + adjSum ent ix n) := by
  intro ent
  induction ent with
  | nil =>
      intro s s' _ _ _ _ hloop ix a _ n
      obtain rfl := Option.some.inj hloop
      rw [adjSum_nil, Int.add_zero, max_eq_right (by omega)]
  | cons u ent ih =>
      intro s s' hok hinj halive hle hloop
      obtain ⟨ix₀, n₀, a₀, hat, hsema, hn⟩ := halive u List.mem_cons_self
      have hid : u.unId.toNat = ix₀ := by rw [hat.1]; rfl
      have hnum : u.unNum.toInt.toNat = n₀ := by rw [hat.2]; rfl
      have hin : ¬(((s.heap a₀).nsems : Int) ≤ u.unNum.toInt ∨ u.unNum.toInt < 0) := by
        rw [hat.2]
        omega
      have hrest := hok.tail_not_isAt hat
      have hzero : adjSum ent ix₀ n₀ = 0 := adjSum_eq_zero hrest
      have hfull : adjSum (u :: ent) ix₀ n₀ = u.unAdjval.toInt := by
        rw [adjSum_cons, if_pos hat, hzero, Int.add_zero]
      rw [exitLoop, hid, hsema] at hloop
      simp only [if_neg hin, hnum] at hloop
      obtain ⟨t, ht⟩ : ∃ t, t = wakeup (s.putVal a₀ n₀
          (exitVal ((s.heap a₀).semval n₀) u.unAdjval)) ix₀ := ⟨_, rfl⟩
      rw [← ht] at hloop
      have hsets : SameSets s t := by
        rw [ht]
        exact (sameSets_putVal s a₀ n₀ _).trans (sameSets_wakeup _ ix₀)
      -- the entry changes its own semaphore and no other
      have hval (a n : Nat) : (t.heap a).semval n = if a = a₀ ∧ n = n₀ then
          exitVal ((s.heap a₀).semval n₀) u.unAdjval else (s.heap a).semval n := by
        rw [ht]
        change (Function.update s.heap a₀ _ a).semval n = _
        rw [Function.update_apply]
        by_cases ha : a = a₀
        · subst ha
          simp only [if_true, true_and, Function.update_apply]
        · simp only [ha, false_and, if_false]
      have hexit := toNat_exitVal (hfull ▸ hle ix₀ a₀ hsema n₀)
      have hkey {ix a n : Nat} (ha : s.sema ix = some a) :
          (a = a₀ ∧ n = n₀) ↔ u.isAt ix n := by
        rw [isAt_iff_of_isAt hat, Int.natCast_inj]
        constructor
        · rintro ⟨rfl, rfl⟩
          exact ⟨hinj _ _ _ hsema ha, rfl⟩
        · rintro ⟨rfl, rfl⟩
          exact ⟨Option.some.inj (ha.symm.trans hsema), rfl⟩
      have hstep {ix a n : Nat} (ha : s.sema ix = some a) :
          max 0 ((((t.heap a).semval n).toNat : Int) + adjSum ent ix n) =
            max 0 (((s.heap a).semval n).toNat + adjSum (u :: ent) ix n) := by
        rw [hval, adjSum_cons]
        by_cases hu : u.isAt ix n
        · obtain ⟨rfl, rfl⟩ := (hkey ha).mpr hu
          obtain rfl := hinj _ _ _ hsema ha
          rw [if_pos ⟨rfl, rfl⟩, if_pos hu, hexit, hzero, Int.add_zero, Int.add_zero]
          omega
        · rw [if_neg (fun hc => hu ((hkey ha).mp hc)), if_neg hu, Int.zero_add]
      intro ix a ha n
      rw [ih t s' hok.tail (hsets.sema ▸ hinj) (fun v hv => ?_) (fun j b hb m => ?_) hloop ix a
        (hsets.sema ▸ ha) n]
      · exact hstep ha
      · obtain ⟨j, m, b, hat', hb, hm⟩ := halive v (List.mem_cons_of_mem _ hv)
        exact ⟨j, m, b, hat', hsets.sema ▸ hb, by rw [hsets.nsems]; exact hm⟩
      · have hb' : s.sema j = some b := hsets.sema ▸ hb
        have hle' := hle j b hb' m
        have h1 := hstep (n := m) hb'
        have hvmx : (0 : Int) ≤ semvmx := by decide
        omega

theorem RangeInv.exit (h : RangeInv info s) {pr : Nat} {r : Reply}
    (hg : RangeGuard info s (.exit pr)) (hr : semexit s pr = some (s', r)) :
    RangeInv info s' ∧ Exact s (.exit pr) r s' := by
  have hundo := h.undo.exit hr
  suffices hval : SameSets s s' ∧ Exact s (.exit pr) r s' by
    refine ⟨h.of_sameSets hval.1 hundo fun ix a ha n => ?_, hval.2⟩
    rw [hval.2 ix a ha n]
    exact max_le (by decide) (hg.2 ix a ha n)
  rw [semexit] at hr
  cases hl : lookupUndo s.undos pr with
  | none =>
      rw [hl] at hr
      obtain ⟨rfl, -⟩ := Prod.mk.inj (Option.some.inj hr)
      refine ⟨⟨rfl, fun _ => rfl, fun _ => rfl, fun _ => rfl⟩, fun ix a ha n => ?_⟩
      have hnil : ents s.undos pr = [] := by rw [ents, hl]; rfl
      rw [hnil, adjSum_nil, Int.add_zero, max_eq_right (by omega)]
  | some ent =>
      have hent : ents s.undos pr = ent := by rw [ents, hl]; rfl
      obtain ⟨t, ht, hsets, -⟩ := h.undo.exitLoop pr
      rw [hl] at hr
      dsimp only at hr
      rw [← hent, ht] at hr
      obtain ⟨rfl, -⟩ := Prod.mk.inj (Option.some.inj hr)
      exact ⟨⟨hsets.sema, hsets.nsems, hsets.seq, hsets.born⟩,
        exitLoop_values _ s t (h.undo.ok pr) h.inj (h.undo.alive pr) hg.2 ht⟩

theorem RangeInv.step (h : RangeInv info s) {e : Event} {r : Reply} (hg : RangeGuard info s e)
    (hs : s.exec info e = some (s', r)) : RangeInv info s' ∧ Exact s e r s' := by
  cases e with
  | semget nsems a => exact h.semget hg.1 hs
  | semop pr id sops ipcperm copyin now =>
      rcases semopStart_cases hs with ⟨rfl, hnil⟩ | ⟨a, hfind, hpass⟩
      · refine ⟨h, fun a _ => ⟨0, .of_eq fun _ => rfl, fun hr => ?_, fun _ _ => rfl, fun p j n => ?_⟩⟩
        · rw [hnil hr]
          rfl
        · split
          · rename_i hc
            rw [hnil hc.1, undoSum, Int.sub_zero]
          · rw [Int.sub_zero]
      · obtain ⟨hinv, hex⟩ := h.pass (findSet_some hfind).2.1 (hg.1 a hfind) (hg.2 a hfind)
          (pass_spec hpass)
        refine ⟨hinv, fun b hb => ?_⟩
        obtain rfl := Option.some.inj ((findSet_some hfind).2.1.symm.trans hb)
        exact hex
  | resume i intr now => exact h.resume hg hs
  | setval id semnum val ipcperm =>
      obtain ⟨rfl, rfl⟩ := Prod.mk.inj (Option.some.inj hs)
      exact h.setval hg
  | setall id array ipcperm =>
      obtain ⟨rfl, rfl⟩ := Prod.mk.inj (Option.some.inj hs)
      exact h.setall
  | rmid id ipcperm =>
      obtain ⟨rfl, rfl⟩ := Prod.mk.inj (Option.some.inj hs)
      exact h.rmid
  | exit pr =>
      rw [Sys.exec] at hs
      split at hs
      · cases hs
      · exact h.exit hg hs

end Steps

theorem runs_rangeInv {info : Seminfo} {s : Sys}
    (h : Runs (Sys.step info) (RangeGuard info) Sys.start s) : RangeInv info s := by
  refine Runs.invariant (fun t e t' hg hs hinv => ?_) h (start_rangeInv info)
  obtain ⟨⟨t'', r⟩, he, rfl⟩ := Option.map_eq_some_iff.mp hs
  exact (hinv.step hg he).1

/-- In every run whose calls meet the guard, the value of every semaphore is at most `semvmx`
and the next such call changes values and undo totals by exactly the amounts asked for. -/
theorem semval_in_range_and_exact {info : Seminfo} {s : Sys}
    (h : Runs (Sys.step info) (RangeGuard info) Sys.start s) :
    (∀ ix a, s.sema ix = some a → ∀ n, 0 ≤ (((s.heap a).semval n).toNat : Int) ∧
      (((s.heap a).semval n).toNat : Int) ≤ semvmx) ∧
    ∀ e r s', RangeGuard info s e → s.exec info e = some (s', r) → Exact s e r s' :=
  ⟨fun ix a ha n => ⟨by omega, (runs_rangeInv h).bound ix a ha n⟩,
    fun _ _ _ hg he => ((runs_rangeInv h).step hg he).2⟩

/-- An operation that is not to be undone. -/
def plainOp (num op : BitVec 16) : Sembuf := { semNum := num, semOp := op, semFlg := 0 }

/-- A semaphore is raised to the maximum, and no further. -/
theorem semval_in_range_and_exact_max : ∃ s, Runs (Sys.step defaultInfo) (RangeGuard defaultInfo)
    Sys.start s ∧ s.sema 0 = some 0 ∧ (((s.heap 0).semval 0).toNat : Int) = semvmx := by
  have h₁ : Runs (Sys.step defaultInfo) (RangeGuard defaultInfo) Sys.start (Sys.start.made' 0 1 0) :=
    .single ⟨.semget 1 0, ⟨⟨by decide, fun p hp => absurd hp List.not_mem_nil⟩, trivial⟩, rfl⟩
  obtain ⟨-, hex⟩ := semval_in_range_and_exact h₁
  have hg : RangeGuard defaultInfo (Sys.start.made' 0 1 0) (.semop 1 0x10000 [plainOp 0 32767] none none 0) := by
    refine ⟨fun a _ _ => ⟨rfl, fun hu => by cases hu⟩, fun a ha k n _ => ?_⟩
    obtain rfl : 0 = a := Option.some.inj (Eq.trans rfl ha)
    cases k with
    | zero =>
        change (0 : Int) + 0 ≤ 32767
        decide
    | succ k =>
        rw [List.take_of_length_le (by simp), intDelta, intDelta]
        change (0 : Int) + ((if 0 = n then 32767 else 0) + 0) ≤ 32767
        split <;> omega
  have hexact := hex _ .done _ hg rfl 0 rfl
  obtain ⟨k, hc, hk, -, -⟩ := hexact
  obtain rfl := hk rfl
  exact ⟨_, h₁.tail ⟨_, hg, rfl⟩, rfl, hc.1 0⟩

/-- Two operations of 32767 take a semaphore to 65534, and two more of them to 65532 with a
wrap; a negative `SETVAL` makes the value 65535. -/
theorem semval_out_of_range : (∃ s, Runs (Sys.step defaultInfo) (fun _ _ => True) Sys.start s ∧
      s.sema 0 = some 0 ∧ semvmx < ((s.heap 0).semval 0).toNat ∧
      ∃ s', s.exec defaultInfo (.semop 1 0x10000 [plainOp 0 32767] none none 0) = some (s', .done) ∧
        ((s'.heap 0).semval 0).toNat < ((s.heap 0).semval 0).toNat) ∧
    ∃ s, Runs (Sys.step defaultInfo) (fun _ _ => True) Sys.start s ∧ s.sema 0 = some 0 ∧
      ((s.heap 0).semval 0).toNat = 65535 := by
  have h₁ : Runs (Sys.step defaultInfo) (fun _ _ => True) Sys.start _ :=
    .single ⟨.semget 1 0, trivial, rfl⟩
  have h₂ : Runs (Sys.step defaultInfo) (fun _ _ => True) Sys.start _ :=
    h₁.tail ⟨.semop 1 0x10000 [plainOp 0 32767, plainOp 0 32767] none none 0, trivial, rfl⟩
  have h₃ : Runs (Sys.step defaultInfo) (fun _ _ => True) Sys.start _ :=
    h₁.tail ⟨.setval 0x10000 0 (-1) none, trivial, rfl⟩
  exact ⟨⟨_, h₂, rfl, by decide, _, rfl, by decide⟩, _, h₃, rfl, by decide⟩

end Obsd.Semop
