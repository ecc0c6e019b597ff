import Obsd.SemPass

/-!
# Undo structures over whole runs

`owed log pr ix n` says from what was done what semaphore `n` of set `ix`
gets back when process `pr` exits. In a run whose calls meet `UndoGuard`
the undo structures hold exactly that (`UndoInv`), for one structure and one
entry each, and `semexit` finds the sets and semaphores its entries name.

The guard names the ways out of this. A vector must not undo its own undo
entries before its end, for `sys_semop` goes on with a structure that was
freed; totals and numbers must fit in a `short`; `SETVAL` must find the entry
for its semaphore before any other entry of the set; and the memory of a set
that processes still sleep on must go to the next set in the same slot.
-/

namespace Obsd.Semop

/-! ## What is owed -/

/-- The negated sum of the operations with `SEM_UNDO` of a process on a semaphore since it
was last set or made. -/
def owed : List Done → Nat → Nat → Nat → Int
  | [], _, _, _ => 0
  | .semop pr' ix' sops :: log, pr, ix, n =>
    owed log pr ix n - if pr' = pr ∧ ix' = ix then undoSum n sops else 0
  | .set ix' semnum :: log, pr, ix, n =>
    if ix' = ix ∧ (semnum = none ∨ semnum = some n) then 0 else owed log pr ix n
  | .exit pr' :: log, pr, ix, n => if pr' = pr then 0 else owed log pr ix n

/-! ## The guard -/

/-- A vector that goes through has its entries recorded. -/
def PassFits (info : Seminfo) (s : Sys) (pr : Nat) (id : BitVec 32) (a : Nat)
    (sops : List Sembuf) : Prop :=
  Applies (s.heap a).nsems (s.heap a).semval sops →
    recordFits (ipcidToIx id) sops (ents s.undos pr) = true ∧
    (sops.any Sembuf.undoes = true → ents s.undos pr = [] → s.undos.semutot < info.semmnu)

def UndoGuard (info : Seminfo) (s : Sys) : Event → Prop
  | .semget nsems a => nsems ≤ 32768 ∧
    ∀ p ∈ s.sleepers, freeSlot info s = some (ipcidToIx p.id) → p.semaptr = a
  | .semop pr id sops _ _ _ => ∀ a, findSet info s id = some a → PassFits info s pr id a sops
  | .resume i _ _ => ∀ p, s.sleepers[i]? = some p → PassFits info s p.pr p.id p.semaptr p.sops
  | .setval id semnum _ _ => ∀ x ∈ s.undos.semuList, clearFits (ipcidToIx id) semnum x.2 = true
  | _ => True

/-! ## The invariant -/

structure UndoInv (info : Seminfo) (s : Sys) : Prop where
  list : ListOk s.undos
  ok : ∀ pr, EntOk (ents s.undos pr)
  /-- Entries are for semaphores there are. -/
  alive : ∀ pr, ∀ u ∈ ents s.undos pr, ∃ ix n a : Nat, u.isAt ix n ∧ s.sema ix = some a ∧
    n < (s.heap a).nsems
  sum : ∀ pr ix n : Nat, adjSum (ents s.undos pr) ix n = owed s.log pr ix n
  small : ∀ ix a, s.sema ix = some a → (s.heap a).nsems ≤ 32768
  range : ∀ ix a, s.sema ix = some a → ix < info.semmni
  slots : ∀ p ∈ s.sleepers, s.sema (ipcidToIx p.id) = none ∨
    s.sema (ipcidToIx p.id) = some p.semaptr

/-- The sleepers are some of those there were, awake or not. -/
def FromSleepers (s s' : Sys) : Prop :=
  ∀ p' ∈ s'.sleepers, ∃ p ∈ s.sleepers, p'.id = p.id ∧ p'.semaptr = p.semaptr

theorem FromSleepers.refl (s : Sys) : FromSleepers s s := fun p hp => ⟨p, hp, rfl, rfl⟩

theorem fromSleepers_wakeup {s t : Sys} (h : FromSleepers s t) (ix : Nat) :
    FromSleepers s (wakeup t ix) := by
  intro p' hp'
  obtain ⟨p, hp, rfl⟩ := List.mem_map.mp hp'
  obtain ⟨q, hq, h1, h2⟩ := h p hp
  refine ⟨q, hq, ?_⟩
  split
  · exact ⟨h1, h2⟩
  · exact ⟨h1, h2⟩

theorem start_undoInv (info : Seminfo) : UndoInv info Sys.start where
  list := ⟨List.nodup_nil, fun _ hx => absurd hx List.not_mem_nil, rfl⟩
  ok := fun _ => entOk_nil
  alive := fun _ _ hu => absurd hu List.not_mem_nil
  sum := fun _ _ _ => rfl
  small := fun _ _ h => by cases h
  range := fun _ _ h => by cases h
  slots := fun _ hp => absurd hp List.not_mem_nil

section Steps

variable {info : Seminfo} {s s' : Sys}

/-- A step that touches neither the slots nor the undo structures. -/
theorem UndoInv.of_same (h : UndoInv info s) (hsets : SameSets s s') (hundo : s'.undos = s.undos)
    (hlog : s'.log = s.log) (hsleep : FromSleepers s s') : UndoInv info s' where
  list := hundo ▸ h.list
  ok := hundo ▸ h.ok
  alive := fun pr u hu => by
    rw [hundo] at hu
    obtain ⟨ix, n, a, hat, hsema, hn⟩ := h.alive pr u hu
    exact ⟨ix, n, a, hat, hsets.sema ▸ hsema, by rw [hsets.nsems]; exact hn⟩
  sum := by rw [hundo, hlog]; exact h.sum
  small := fun ix a ha => by
    rw [hsets.sema] at ha
    rw [hsets.nsems]
    exact h.small ix a ha
  range := fun ix a ha => h.range ix a (hsets.sema ▸ ha)
  slots := fun p' hp' => by
    obtain ⟨p, hp, hid, haddr⟩ := hsleep p' hp'
    rw [hsets.sema, hid, haddr]
    exact h.slots p hp

/-- The undo structures change and no set does. -/
theorem UndoInv.of_undos (h : UndoInv info s) (hsets : SameSets s s') (hlist : ListOk s'.undos)
    (hok : ∀ pr, EntOk (ents s'.undos pr))
    (halive : ∀ pr, ∀ u ∈ ents s'.undos pr, (∃ v ∈ ents s.undos pr, v.key = u.key) ∨
      ∃ ix n a : Nat, u.isAt ix n ∧ s.sema ix = some a ∧ n < (s.heap a).nsems)
    (hsum : ∀ pr ix n : Nat, adjSum (ents s'.undos pr) ix n = owed s'.log pr ix n)
    (hsleep : FromSleepers s s') : UndoInv info s' where
  list := hlist
  ok := hok
  alive := fun pr u hu => by
    have hthere : ∃ ix n a : Nat, u.isAt ix n ∧ s.sema ix = some a ∧ n < (s.heap a).nsems := by
      rcases halive pr u hu with ⟨v, hv, hkey⟩ | h'
      · obtain ⟨ix, n, a, hat, hrest⟩ := h.alive pr v hv
        rw [Undo.key, Undo.key, Prod.mk.injEq] at hkey
        exact ⟨ix, n, a, ⟨hkey.1 ▸ hat.1, hkey.2 ▸ hat.2⟩, hrest⟩
      · exact h'
    obtain ⟨ix, n, a, hat, hsema, hn⟩ := hthere
    exact ⟨ix, n, a, hat, hsets.sema ▸ hsema, by rw [hsets.nsems]; exact hn⟩
  sum := hsum
  small := fun ix a ha => by
    rw [hsets.sema] at ha
    rw [hsets.nsems]
    exact h.small ix a ha
  range := fun ix a ha => h.range ix a (hsets.sema ▸ ha)
  slots := fun p' hp' => by
    obtain ⟨p, hp, hid, haddr⟩ := hsleep p' hp'
    rw [hsets.sema, hid, haddr]
    exact h.slots p hp

/-! ## `semop` -/

theorem Applies.inRange {nsems : Nat} {semval : Nat → BitVec 16} {ops : List Sembuf}
    (h : Applies nsems semval ops) : ∀ op ∈ ops, op.semNum.toNat < nsems := by
  intro op hop
  obtain ⟨j, hj⟩ := List.getElem?_of_mem hop
  exact (h j op hj).inRange

/-- The entries of a vector that goes through are recorded. -/
theorem UndoInv.record (h : UndoInv info s) {pr : Nat} {id : BitVec 32} {a : Nat}
    {sops : List Sembuf} (hslot : s.sema (ipcidToIx id) = some a)
    (hfit : PassFits info s pr id a sops)
    (happ : Applies (s.heap a).nsems (s.heap a).semval sops) (now : Nat) :
    ∃ us, recordUndos (semopCall info s pr id a sops now) sops 0 s.undos .null = .all us ∧
      Recorded s.undos us pr (ipcidToIx id) sops ∧
      usesFreed (semopCall info s pr id a sops now) sops s.undos .null = false := by
  obtain ⟨hrec, hroom⟩ := hfit happ
  refine recordUndos_fits (c := semopCall info s pr id a sops now) h.list (.inl rfl) (h.ok pr) ?_
    hroom hrec
  exact fun op hop => Nat.lt_of_lt_of_le (happ.inRange op hop) (h.small _ a hslot)

theorem UndoInv.pass (h : UndoInv info s) {pr : Nat} {id : BitVec 32} {a : Nat}
    {sops : List Sembuf} {now : Nat} {r : Sys × Reply} (hslot : s.sema (ipcidToIx id) = some a)
    (hfit : PassFits info s pr id a sops) (hr : PassSpec info s pr id a sops now r) :
    UndoInv info r.1 := by
  cases hr with
  | tooBig => exact h.of_same (sameSets_store ..) rfl rfl (.refl s)
  | refused => exact h
  | eagain => exact h
  | @asleep k op hop hin happ hno =>
      have hundo : (s.afterSleep pr id a sops op).undos = s.undos := by
        rw [Sys.afterSleep, Sys.store, count]
        split <;> rfl
      have hsets : SameSets s (s.afterSleep pr id a sops op) := .of_update rfl rfl ⟨rfl, rfl, rfl⟩
      have hbase : UndoInv info { s.afterSleep pr id a sops op with sleepers := s.sleepers } :=
        h.of_same ⟨hsets.sema, hsets.nsems, hsets.seq, hsets.born⟩ hundo rfl (.refl s)
      refine ⟨hbase.list, hbase.ok, hbase.alive, hbase.sum, hbase.small, hbase.range, ?_⟩
      intro p hp
      rcases List.mem_cons.mp hp with rfl | hp
      · exact .inr hslot
      · exact h.slots p hp
  | @done us w u happ hscan hrec =>
      obtain ⟨us', hrec', hres, -⟩ := h.record hslot hfit happ now
      obtain rfl := Record.all.inj (hrec.symm.trans hrec')
      have hsets : SameSets s (s.afterPass pr (ipcidToIx id) a sops now us) :=
        .of_update rfl rfl ⟨rfl, rfl, rfl⟩
      have hinv : UndoInv info (s.afterPass pr (ipcidToIx id) a sops now us) := by
        refine h.of_undos hsets hres.list (fun p => ?_) (fun p u hu => ?_) (fun p ix n => ?_)
          (.refl s)
        · by_cases hp : p = pr
          · exact hp ▸ hres.ok
          · rw [show ents (s.afterPass pr (ipcidToIx id) a sops now us).undos p = ents us p from rfl,
              hres.others p hp]
            exact h.ok p
        · change u ∈ ents us p at hu
          by_cases hp : p = pr
          · rw [hp] at hu ⊢
            rcases hres.keys u hu with hold | ⟨op, hop, hat⟩
            · exact .inl hold
            · exact .inr ⟨_, _, a, hat, hslot, happ.inRange op hop⟩
          · rw [hres.others p hp] at hu
            exact .inl ⟨u, hu, rfl⟩
        · change adjSum (ents us p) ix n = owed (.semop pr (ipcidToIx id) sops :: s.log) p ix n
          rw [owed, ← h.sum]
          by_cases hp : pr = p
          · subst hp
            rw [hres.sum]
            simp only [Int.natCast_inj, true_and]
          · rw [hres.others p (Ne.symm hp), if_neg (fun hc => hp hc.1), Int.sub_zero]
      split
      · exact hinv.of_same (sameSets_wakeup ..) rfl rfl (fromSleepers_wakeup (.refl _) _)
      · exact hinv

theorem fromSleepers_eraseIdx (s : Sys) (i : Nat) :
    FromSleepers s { s with sleepers := s.sleepers.eraseIdx i } :=
  fun p hp => ⟨p, List.mem_of_mem_eraseIdx hp, rfl, rfl⟩

theorem UndoInv.resume (h : UndoInv info s) {i : Nat} {intr : Bool} {now : Nat} {r : Reply}
    (hfit : ∀ p, s.sleepers[i]? = some p → PassFits info s p.pr p.id p.semaptr p.sops)
    (hr : semopResume info s i intr now = some (s', r)) : UndoInv info s' := by
  obtain ⟨p, hp, -, ⟨-, rfl, -⟩ | ⟨hslot, -, hrest⟩⟩ := semopResume_cases hr
  · exact h.of_same ⟨rfl, fun _ => rfl, fun _ => rfl, fun _ => rfl⟩ rfl rfl
      (fromSleepers_eraseIdx s i)
  · have hsleep : FromSleepers s (s.awake i p) := by
      intro q hq
      rw [awake_sleepers] at hq
      exact fromSleepers_eraseIdx s i q hq
    have hawake : UndoInv info (s.awake i p) :=
      h.of_same (awake_sameSets s i p) (awake_undos s i p) (awake_log s i p) hsleep
    rcases hrest with ⟨-, rfl, -⟩ | ⟨-, hpass⟩
    · exact hawake
    · have hhere : s.sema (ipcidToIx p.id) = some p.semaptr :=
        (h.slots p (List.mem_of_getElem? hp)).resolve_left hslot
      refine hawake.pass ((awake_sameSets s i p).sema ▸ hhere) ?_ (pass_spec hpass)
      intro happ
      rw [(awake_sameSets s i p).nsems, awake_semval] at happ
      rw [awake_undos]
      exact hfit p hp happ

/-! ## Clearing -/

theorem adjSum_filter_gone {ent : List Undo} {gone : Undo → Prop} [DecidablePred gone] {j : Int}
    {n : Nat} (h : ∀ u ∈ ent, u.isAt j n → gone u) :
    adjSum (ent.filter fun u => decide (¬gone u)) j n = 0 := by
  refine adjSum_eq_zero fun u hu hat => ?_
  rw [List.mem_filter] at hu
  exact of_decide_eq_true hu.2 (h u hu.1 hat)

theorem adjSum_filter_kept {ent : List Undo} {gone : Undo → Prop} [DecidablePred gone] {j : Int}
    {n : Nat} (h : ∀ u ∈ ent, u.isAt j n → ¬gone u) :
    adjSum (ent.filter fun u => decide (¬gone u)) j n = adjSum ent j n := by
  rw [adjSum, adjSum, List.filter_filter]
  congr 2
  refine List.filter_congr fun u hu => ?_
  by_cases hat : u.isAt j n
  · simp [hat, h u hu hat]
  · simp [hat]

theorem EntOk.filter {ent : List Undo} (h : EntOk ent) (q : Undo → Bool) : EntOk (ent.filter q) where
  distinct := h.distinct.sublist (List.Sublist.map _ List.filter_sublist)
  nonzero := fun u hu => h.nonzero u (List.mem_of_mem_filter hu)

theorem cleared_all {us : Undos} (hok : ListOk us) (ix : Int) :
    Cleared us (semundoClear us ix (-1)) fun u => u.unId = ix :=
  semundoClear_cleared hok (-1) _ fun x _ =>
    clearLoop_all x.2.length 0 x.2 passed_zero (by omega)

theorem cleared_one {us : Undos} (hok : ListOk us) (hent : ∀ pr, EntOk (ents us pr)) {ix : Int}
    {n : Nat} (hfit : ∀ x ∈ us.semuList, clearFits ix n x.2 = true) :
    Cleared us (semundoClear us ix n) fun u => u.isAt ix n :=
  semundoClear_cleared hok n _ fun x hx => by
    have hents : ents us x.1 = x.2 := ents_of_mem hok hx
    have hx' : EntOk x.2 := hents ▸ hent x.1
    exact clearLoop_one x.2.length 0 x.2 hx' passed_zero (hfit x hx) (by omega)

/-- The sum after the entries of a semaphore, or of a set, are gone. -/
theorem Cleared.sum {us us' : Undos} {ix : Nat} {semnum : Option Nat} {gone : Undo → Prop}
    [DecidablePred gone] (h : Cleared us us' gone)
    (hgone : ∀ u j n, u.isAt (j : Nat) n → (gone u ↔ ix = j ∧ (semnum = none ∨ semnum = some n)))
    (pr j n : Nat) : adjSum (Semop.ents us' pr) j n =
      if ix = j ∧ (semnum = none ∨ semnum = some n) then 0 else adjSum (Semop.ents us pr) j n := by
  rw [adjSum_perm (h.ents pr)]
  split
  · rename_i hyes
    exact adjSum_filter_gone fun u _ hat => (hgone u j n hat).mpr hyes
  · rename_i hno
    exact adjSum_filter_kept fun u _ hat hg => hno ((hgone u j n hat).mp hg)

theorem Cleared.subset {us us' : Undos} {gone : Undo → Prop} [DecidablePred gone]
    (h : Cleared us us' gone) {pr : Nat} {u : Undo} (hu : u ∈ Semop.ents us' pr) :
    u ∈ Semop.ents us pr ∧ ¬gone u := by
  have hm := (h.ents pr).mem_iff.mp hu
  rw [List.mem_filter] at hm
  exact ⟨hm.1, of_decide_eq_true hm.2⟩

theorem Cleared.entOk {us us' : Undos} {gone : Undo → Prop} [DecidablePred gone]
    (h : Cleared us us' gone) (hok : ∀ pr, EntOk (Semop.ents us pr)) (pr : Nat) :
    EntOk (Semop.ents us' pr) :=
  ((hok pr).filter _).perm (h.ents pr).symm

theorem gone_all_iff {u : Undo} {ix j n : Nat} (h : u.isAt (j : Nat) n) :
    u.unId = (ix : Int) ↔ ix = j ∧ ((none : Option Nat) = none ∨ (none : Option Nat) = some n) := by
  rw [h.1, Int.natCast_inj]
  simp [eq_comm]

theorem gone_one_iff {u : Undo} {ix m j n : Nat} (h : u.isAt (j : Nat) n) :
    u.isAt ix m ↔ ix = j ∧ ((some m : Option Nat) = none ∨ some m = some n) := by
  rw [isAt_iff_of_isAt h, Int.natCast_inj]
  simp [eq_comm]

theorem UndoInv.setval (h : UndoInv info s) {id : BitVec 32} {semnum : Int} (val : Int)
    (ipcperm : Option Errno)
    (hfit : ∀ x ∈ s.undos.semuList, clearFits (ipcidToIx id) semnum x.2 = true) :
    UndoInv info (Semop.setval info s id semnum val ipcperm).1 := by
  rcases setval_cases info s id semnum val ipcperm with ⟨heq, -⟩ | ⟨a, n, -, rfl, -, -, heq⟩
  · rw [heq]
    exact h
  · rw [heq]
    have hc := cleared_one h.list h.ok hfit
    have hsets : SameSets s (s.afterSetval (ipcidToIx id) a n (BitVec.ofInt 16 val)) :=
      .of_update rfl rfl ⟨rfl, rfl, rfl⟩
    refine h.of_undos hsets hc.list (hc.entOk h.ok) (fun pr u hu => ?_) (fun pr j m => ?_)
      (fromSleepers_wakeup (.refl s) _)
    · exact .inl ⟨u, (hc.subset hu).1, rfl⟩
    · exact (hc.sum (fun u j m hat => gone_one_iff hat) pr j m).trans (by rw [h.sum]; rfl)

theorem UndoInv.setall (h : UndoInv info s) (id : BitVec 32) (array : Nat → Option (BitVec 16))
    (ipcperm : Option Errno) : UndoInv info (Semop.setall info s id array ipcperm).1 := by
  rcases setall_cases info s id array ipcperm with ⟨heq, -⟩ | ⟨a, -, -, heq⟩
  · rw [heq]
    exact h
  · rw [heq]
    have hc := cleared_all h.list (ipcidToIx id)
    have hsets : SameSets s (s.afterSetall (ipcidToIx id) a array) :=
      .of_update rfl rfl ⟨rfl, rfl, rfl⟩
    refine h.of_undos hsets hc.list (hc.entOk h.ok) (fun pr u hu => ?_) (fun pr j m => ?_)
      (fromSleepers_wakeup (.refl s) _)
    · exact .inl ⟨u, (hc.subset hu).1, rfl⟩
    · exact (hc.sum (fun u j m hat => gone_all_iff hat) pr j m).trans (by rw [h.sum]; rfl)

/-- No entry is left for a set that goes. -/
theorem UndoInv.rmid (h : UndoInv info s) (id : BitVec 32) (ipcperm : Option Errno) :
    UndoInv info (Semop.rmid info s id ipcperm).1 := by
  rcases rmid_cases info s id ipcperm with heq | ⟨a, -, heq⟩
  · rw [heq]
    exact h
  rw [heq]
  have hc := cleared_all h.list (ipcidToIx id)
  have hsema (j : Nat) : (s.afterRmid (ipcidToIx id) a).sema j =
      if j = ipcidToIx id then none else s.sema j := Function.update_apply ..
  have hsome {j b : Nat} (hj : (s.afterRmid (ipcidToIx id) a).sema j = some b) :
      s.sema j = some b := by
    rw [hsema] at hj
    split at hj
    · cases hj
    · exact hj
  refine ⟨hc.list, hc.entOk h.ok, fun pr u hu => ?_, fun pr j m => ?_,
    fun j b hj => h.small j b (hsome hj), fun j b hj => h.range j b (hsome hj), fun p' hp' => ?_⟩
  · obtain ⟨hold, hne⟩ := hc.subset hu
    obtain ⟨j, n, b, hat, hb, hn⟩ := h.alive pr u hold
    refine ⟨j, n, b, hat, ?_, hn⟩
    rw [hsema, if_neg ?_]
    · exact hb
    · rintro rfl
      exact hne hat.1
  · exact (hc.sum (fun u j m hat => gone_all_iff hat) pr j m).trans (by rw [h.sum]; rfl)
  · obtain ⟨p, hp, hid, haddr⟩ := fromSleepers_wakeup (.refl s) _ p' hp'
    rw [hsema, hid, haddr]
    split
    · exact .inl rfl
    · exact h.slots p hp

/-! ## `semget` and `semexit` -/

theorem UndoInv.semget (h : UndoInv info s) {nsems a : Nat} {r : Reply} (hsmall : nsems ≤ 32768)
    (hmem : ∀ p ∈ s.sleepers, freeSlot info s = some (ipcidToIx p.id) → p.semaptr = a)
    (hr : Semop.semget info s nsems a = some (s', r)) : UndoInv info s' := by
  rcases semget_cases hr with rfl | ⟨ix, hslot, hix, hnone, hfree, rfl⟩
  · exact h
  have hsema (j : Nat) : (s.made' ix nsems a).sema j = if j = ix then some a else s.sema j :=
    Function.update_apply ..
  have hheap {j b : Nat} (hb : s.sema j = some b) : (s.made' ix nsems a).heap b = s.heap b := by
    refine Function.update_of_ne ?_ _ _
    rintro rfl
    exact hfree j (h.range j b hb) hb
  have hnew : ((s.made' ix nsems a).heap a).nsems = nsems := by
    change (Function.update s.heap a _ a).nsems = nsems
    rw [Function.update_self]
  refine ⟨h.list, h.ok, fun pr u hu => ?_, fun pr j n => ?_, fun j b hb => ?_, fun j b hb => ?_,
    fun p hp => ?_⟩
  · obtain ⟨j, n, b, hat, hb, hn⟩ := h.alive pr u hu
    refine ⟨j, n, b, hat, ?_, ?_⟩
    · rw [hsema, if_neg ?_]
      · exact hb
      · rintro rfl
        rw [hnone] at hb
        cases hb
    · rw [hheap hb]
      exact hn
  · -- there were no entries for a slot that was empty
    change adjSum (ents s.undos pr) j n = owed (.set ix none :: s.log) pr j n
    rw [owed, ← h.sum]
    split
    · rename_i hj
      refine adjSum_eq_zero fun u hu hat => ?_
      obtain ⟨j', n', b, hat', hb, -⟩ := h.alive pr u hu
      have hjj : j' = j := Int.natCast_inj.mp (hat'.1.symm.trans hat.1)
      rw [hjj, ← hj.1, hnone] at hb
      cases hb
    · rfl
  · rw [hsema] at hb
    split at hb
    · obtain rfl := Option.some.inj hb
      rw [hnew]
      exact hsmall
    · rw [hheap hb]
      exact h.small j b hb
  · rw [hsema] at hb
    split at hb
    · rename_i hj
      exact hj ▸ hix
    · exact h.range j b hb
  · rw [hsema]
    split
    · rename_i hj
      exact .inr (congrArg some (hmem p hp (hj ▸ hslot)).symm)
    · exact h.slots p hp

/-- The loop of `semexit` finds the semaphores of all its entries, and changes values only. -/
theorem exitLoop_some : ∀ (ent : List Undo) (s : Sys), (∀ u ∈ ent, ∃ ix n a : Nat, u.isAt ix n ∧
      s.sema ix = some a ∧ n < (s.heap a).nsems) →
    ∃ s', exitLoop ent s = some s' ∧ SameSets s s' ∧ s'.undos = s.undos ∧ s'.log = s.log ∧
      FromSleepers s s' := by
  intro ent
  induction ent with
  | nil => exact fun s _ => ⟨s, rfl, .refl s, rfl, rfl, .refl s⟩
  | cons u ent ih =>
      intro s halive
      obtain ⟨ix, n, a, hat, hsema, hn⟩ := halive u List.mem_cons_self
      have hid : u.unId.toNat = ix := by rw [hat.1]; rfl
      have hnum : u.unNum.toInt.toNat = n := by rw [hat.2]; rfl
      have hin : ¬(((s.heap a).nsems : Int) ≤ u.unNum.toInt ∨ u.unNum.toInt < 0) := by
        rw [hat.2]
        omega
      obtain ⟨t, ht⟩ : ∃ t, t = wakeup (s.putVal a n (exitVal ((s.heap a).semval n) u.unAdjval)) ix :=
        ⟨_, rfl⟩
      have hsets : SameSets s t := by
        rw [ht]
        exact (sameSets_putVal s a n _).trans (sameSets_wakeup _ ix)
      obtain ⟨s', hloop, hs', hu', hl', hsl'⟩ := ih t fun v hv => by
        obtain ⟨j, m, b, hat', hb, hm⟩ := halive v (List.mem_cons_of_mem _ hv)
        exact ⟨j, m, b, hat', hsets.sema ▸ hb, by rw [hsets.nsems]; exact hm⟩
      refine ⟨s', ?_, hsets.trans hs', ?_, ?_, ?_⟩
      · rw [exitLoop, hid, hsema]
        simp only [if_neg hin, hnum, ← ht, hloop]
      · rw [hu', ht]
        rfl
      · rw [hl', ht]
        rfl
      · intro p' hp'
        obtain ⟨p, hp, h1, h2⟩ := hsl' p' hp'
        rw [ht] at hp
        obtain ⟨q, hq, h3, h4⟩ := fromSleepers_wakeup (t := s.putVal a n _)
          (fun p hp => ⟨p, hp, rfl, rfl⟩) ix p hp
        exact ⟨q, hq, h1.trans h3, h2.trans h4⟩

theorem UndoInv.exitLoop (h : UndoInv info s) (pr : Nat) :
    ∃ s', Semop.exitLoop (ents s.undos pr) s = some s' ∧ SameSets s s' ∧ s'.undos = s.undos ∧
      s'.log = s.log ∧ FromSleepers s s' :=
  exitLoop_some (ents s.undos pr) s (h.alive pr)

theorem UndoInv.exit (h : UndoInv info s) {pr : Nat} {r : Reply}
    (hr : semexit s pr = some (s', r)) : UndoInv info s' := by
  rw [semexit] at hr
  cases hl : lookupUndo s.undos pr with
  | none =>
      rw [hl] at hr
      obtain ⟨rfl, -⟩ := Prod.mk.inj (Option.some.inj hr)
      have hnil : ents s.undos pr = [] := by rw [ents, hl]; rfl
      refine ⟨h.list, h.ok, h.alive, fun p j n => ?_, h.small, h.range, h.slots⟩
      rw [owed, ← h.sum]
      split
      · rename_i hp
        rw [← hp, hnil]
        rfl
      · rfl
  | some ent =>
      have hent : ents s.undos pr = ent := by rw [ents, hl]; rfl
      obtain ⟨t, ht, hsets, hundo, hlog, hsleep⟩ := h.exitLoop pr
      rw [hl] at hr
      dsimp only at hr
      rw [← hent, ht] at hr
      obtain ⟨rfl, -⟩ := Prod.mk.inj (Option.some.inj hr)
      have hput : Put s.undos (putUndo s.undos pr []) pr [] :=
        putUndo_put h.list.keyed (fun x hx _ => h.list.nonempty x hx) h.list.tot hl []
      have hnow (p : Nat) : ents (putUndo t.undos pr []) p = if p = pr then [] else ents s.undos p := by
        rw [hundo]
        exact hput.ents p
      have hsame : SameSets s { t with
          undos := putUndo t.undos pr []
          log := .exit pr :: t.log } := ⟨hsets.sema, hsets.nsems, hsets.seq, hsets.born⟩
      refine h.of_undos hsame ?_ (fun p => ?_) (fun p u hu => ?_)
        (fun p j n => ?_) hsleep
      · rw [hundo]
        exact hput.list
      · rw [hnow]
        split
        · exact entOk_nil
        · exact h.ok p
      · rw [hnow] at hu
        split at hu
        · cases hu
        · exact .inl ⟨u, hu, rfl⟩
      · rw [hnow, owed, hlog, ← h.sum]
        by_cases hp : p = pr
        · rw [if_pos hp, if_pos hp.symm]
          rfl
        · rw [if_neg hp, if_neg (Ne.symm hp)]

theorem UndoInv.step (h : UndoInv info s) {e : Event} (hg : UndoGuard info s e)
    (hs : s.step info e = some s') : UndoInv info s' := by
  obtain ⟨⟨t, r⟩, he, rfl⟩ := Option.map_eq_some_iff.mp hs
  cases e with
  | semget nsems a => exact h.semget hg.1 hg.2 he
  | semop pr id sops ipcperm copyin now =>
      rcases semopStart_cases he with ⟨rfl, -⟩ | ⟨a, hfind, hpass⟩
      · exact h
      · exact h.pass (findSet_some hfind).2.1 (hg a hfind) (pass_spec hpass)
  | resume i intr now => exact h.resume hg he
  | setval id semnum val ipcperm =>
      obtain rfl := congrArg Prod.fst (Option.some.inj he)
      exact h.setval _ _ hg
  | setall id array ipcperm =>
      obtain rfl := congrArg Prod.fst (Option.some.inj he)
      exact h.setall _ _ _
  | rmid id ipcperm =>
      obtain rfl := congrArg Prod.fst (Option.some.inj he)
      exact h.rmid _ _
  | exit pr =>
      rw [Sys.exec] at he
      split at he
      · cases he
      · exact h.exit he

end Steps

theorem runs_undoInv {info : Seminfo} {s : Sys}
    (h : Runs (Sys.step info) (UndoGuard info) Sys.start s) : UndoInv info s :=
  Runs.invariant (fun _ _ _ hg hs hinv => hinv.step hg hs) h (start_undoInv info)

/-- In every run whose calls meet the guard: one structure for a process and one entry for a
semaphore, holding what is owed; clearing takes out the entries of the semaphore or of the
set and no others; a vector is recorded without use of a structure that was freed; `semutot`
counts the structures; and `semexit` does not panic. -/
theorem undo_structures_exact {info : Seminfo} {s : Sys}
    (h : Runs (Sys.step info) (UndoGuard info) Sys.start s) :
    (s.undos.semuList.map Prod.fst).Nodup ∧ s.undos.semutot = s.undos.semuList.length ∧
    (∀ pr ent, (pr, ent) ∈ s.undos.semuList → (ent.map Undo.key).Nodup ∧
      ∀ u ∈ ent, ∃ ix n : Nat, u.isAt ix n ∧ u.unAdjval.toInt = owed s.log pr ix n) ∧
    (∀ pr ix n : Nat, owed s.log pr ix n ≠ 0 → ∃ u ∈ ents s.undos pr, u.isAt ix n) ∧
    (∀ pr ix : Nat, (ents (semundoClear s.undos ix (-1)) pr).Perm
      ((ents s.undos pr).filter fun u => decide (¬u.unId = ix))) ∧
    (∀ pr ix n : Nat, (∀ x ∈ s.undos.semuList, clearFits ix n x.2 = true) →
      (ents (semundoClear s.undos ix n) pr).Perm
        ((ents s.undos pr).filter fun u => decide (¬u.isAt ix n))) ∧
    (∀ pr id a sops now, s.sema (ipcidToIx id) = some a → PassFits info s pr id a sops →
      Applies (s.heap a).nsems (s.heap a).semval sops →
      usesFreed (semopCall info s pr id a sops now) sops s.undos .null = false) ∧
    (∀ pr, exitLoop (ents s.undos pr) s ≠ none) := by
  have hinv := runs_undoInv h
  refine ⟨hinv.list.keyed, hinv.list.tot, fun pr ent hm => ?_, fun pr ix n hne => ?_,
    fun pr ix => (cleared_all hinv.list ix).ents pr,
    fun pr ix n hfit => (cleared_one hinv.list hinv.ok hfit).ents pr,
    fun pr id a sops now hslot hfit happ => ?_, fun pr => ?_⟩
  · obtain rfl := ents_of_mem hinv.list hm
    refine ⟨(hinv.ok pr).distinct, fun u hu => ?_⟩
    obtain ⟨ix, n, a, hat, -⟩ := hinv.alive pr u hu
    exact ⟨ix, n, hat, by rw [← hinv.sum, (hinv.ok pr).adjSum_of_mem hu hat]⟩
  · by_contra hno
    push Not at hno
    exact hne (by rw [← hinv.sum, adjSum_eq_zero hno])
  · obtain ⟨us, -, -, hfree⟩ := hinv.record hslot hfit happ now
    exact hfree
  · obtain ⟨s', hs', -⟩ := hinv.exitLoop pr
    rw [hs']
    exact Option.some_ne_none s'

/-- The limits of a default configuration. -/
def defaultInfo : Seminfo where
  semmni := 10
  semmns := 60
  semmnu := 30
  semmsl := 60
  semopm := 100

/-- An operation on a semaphore that is to be undone. -/
def undoOp (num op : BitVec 16) : Sembuf := { semNum := num, semOp := op, semFlg := semUndo }

/-- Process 1 takes 2 from the second of two semaphores it has put 5 in, and owes 3. -/
theorem undo_structures_exact_owed : ∃ s, Runs (Sys.step defaultInfo) (UndoGuard defaultInfo)
    Sys.start s ∧ owed s.log 1 0 1 = -3 ∧ ∃ u ∈ ents s.undos 1, u.isAt 0 1 := by
  have h₁ : Runs (Sys.step defaultInfo) (UndoGuard defaultInfo) Sys.start _ :=
    .single ⟨.semget 2 0, ⟨by decide, fun p hp => absurd hp List.not_mem_nil⟩, rfl⟩
  have h₂ : Runs (Sys.step defaultInfo) (UndoGuard defaultInfo) Sys.start _ :=
    h₁.tail ⟨.semop 1 0x10000 [undoOp 1 5, undoOp 1 (-2)] none none 0,
      fun a _ _ => ⟨rfl, fun _ _ => by decide⟩, rfl⟩
  have howed := (undo_structures_exact h₂).2.2.2.1 1 0 1 (by decide)
  exact ⟨_, h₂, rfl, howed⟩

/-- The vector +1, -1, +1 on one semaphore, each to be undone: the second entry cancels the
first and frees the structure, the third is written into the freed structure, and the process
owes 1 with no undo structure to say so. -/
theorem undo_lost_in_freed : ∃ s, Runs (Sys.step defaultInfo) (fun _ _ => True) Sys.start s ∧
    s.log.length = 2 ∧ owed s.log 1 0 0 = -1 ∧ s.undos.semuList = [] ∧
    ∃ t, Runs (Sys.step defaultInfo) (fun _ _ => True) Sys.start t ∧
      usesFreed (semopCall defaultInfo t 1 0x10000 0 [undoOp 0 1, undoOp 0 (-1), undoOp 0 1] 0)
        [undoOp 0 1, undoOp 0 (-1), undoOp 0 1] t.undos .null = true := by
  have h₁ : Runs (Sys.step defaultInfo) (fun _ _ => True) Sys.start _ :=
    .single ⟨.semget 1 0, trivial, rfl⟩
  have h₂ : Runs (Sys.step defaultInfo) (fun _ _ => True) Sys.start _ :=
    h₁.tail ⟨.semop 1 0x10000 [undoOp 0 1, undoOp 0 (-1), undoOp 0 1] none none 0, trivial, rfl⟩
  exact ⟨_, h₂, rfl, rfl, rfl, _, h₁, rfl⟩

end Obsd.Semop
