import Obsd.AssocList
import Obsd.SemSystem
import Obsd.SemopAtomic

/-!
# Undo structures

The entries of one process as a table: `adjSum ent ix n` is what the table
holds for semaphore `n` of set `ix`. `adjustEnt_cases` says what one
adjustment can do to the entries, `recordUndos_fits` what recording a whole
vector does to the structures, and `clearLoop_all` and `clearLoop_one` what
clearing leaves. Where the source goes wrong there is a condition:
`RecordFits` keeps the totals within a `short` and the structure allocated
until the last entry of the vector is recorded, and `ClearFits` says that
`semundo_clear` looks at the right entry first.
-/

namespace Obsd.Semop

open AssocList (Keyed)

/-! ## Entries -/

/-- The number of the semaphore and the set. -/
def Undo.key (u : Undo) : Int × BitVec 16 := (u.unId, u.unNum)

/-- Entries for one semaphore. -/
def Undo.isAt (u : Undo) (ix : Int) (n : Nat) : Prop := u.unId = ix ∧ u.unNum.toInt = n

instance (u : Undo) (ix : Int) (n : Nat) : Decidable (u.isAt ix n) :=
  inferInstanceAs (Decidable (_ ∧ _))

theorem Undo.isFor_iff (u : Undo) (ix : Int) (num : BitVec 16) :
    u.isFor ix num = true ↔ u.isAt ix num.toNat := by
  simp [Undo.isFor, Undo.isAt]

/-- What entries hold for a semaphore. -/
def adjSum (ent : List Undo) (ix : Int) (n : Nat) : Int :=
  ((ent.filter fun u => u.isAt ix n).map fun u => u.unAdjval.toInt).sum

@[simp] theorem adjSum_nil (ix : Int) (n : Nat) : adjSum [] ix n = 0 := rfl

theorem adjSum_cons (u : Undo) (ent : List Undo) (ix : Int) (n : Nat) :
    adjSum (u :: ent) ix n = (if u.isAt ix n then u.unAdjval.toInt else 0) + adjSum ent ix n := by
  by_cases h : u.isAt ix n
  · simp [h, adjSum]
  · simp [h, adjSum]

theorem adjSum_perm {ent ent' : List Undo} (h : ent.Perm ent') (ix : Int) (n : Nat) :
    adjSum ent ix n = adjSum ent' ix n :=
  ((h.filter _).map _).sum_eq

theorem adjSum_eq_zero {ent : List Undo} {ix : Int} {n : Nat} (h : ∀ u ∈ ent, ¬u.isAt ix n) :
    adjSum ent ix n = 0 := by
  induction ent with
  | nil => rfl
  | cons u ent ih =>
      rw [adjSum_cons, if_neg (h u List.mem_cons_self), ih fun v hv => h v (List.mem_cons_of_mem _ hv)]
      rfl

/-- Well-formed entries: one for each semaphore at most, none of them of 0. -/
structure EntOk (ent : List Undo) : Prop where
  distinct : (ent.map Undo.key).Nodup
  nonzero : ∀ u ∈ ent, u.unAdjval ≠ 0#16

theorem entOk_nil : EntOk [] := ⟨List.nodup_nil, fun _ hu => absurd hu List.not_mem_nil⟩

theorem EntOk.perm {ent ent' : List Undo} (h : EntOk ent) (hp : ent.Perm ent') : EntOk ent' where
  distinct := (hp.map _).nodup_iff.mp h.distinct
  nonzero := fun u hu => h.nonzero u (hp.mem_iff.mpr hu)

theorem EntOk.tail {u : Undo} {ent : List Undo} (h : EntOk (u :: ent)) : EntOk ent where
  distinct := (List.nodup_cons.mp h.distinct).2
  nonzero := fun v hv => h.nonzero v (List.mem_cons_of_mem _ hv)

theorem key_eq_of_isAt {u v : Undo} {ix : Int} {n : Nat} (hu : u.isAt ix n) (hv : v.isAt ix n) :
    u.key = v.key := by
  have hnum : u.unNum = v.unNum := BitVec.eq_of_toInt_eq (hu.2.trans hv.2.symm)
  rw [Undo.key, Undo.key, hu.1, hv.1, hnum]

/-- The other entries are for other semaphores. -/
theorem EntOk.tail_not_isAt {u : Undo} {ent : List Undo} (h : EntOk (u :: ent)) {ix : Int} {n : Nat}
    (hu : u.isAt ix n) : ∀ v ∈ ent, ¬v.isAt ix n := by
  intro v hv hat
  refine (List.nodup_cons.mp h.distinct).1 ?_
  rw [key_eq_of_isAt hu hat]
  exact List.mem_map_of_mem hv

/-- An entry holds all there is for its semaphore. -/
theorem EntOk.adjSum_of_mem {ent : List Undo} (h : EntOk ent) {u : Undo} (hu : u ∈ ent) {ix : Int}
    {n : Nat} (hat : u.isAt ix n) : adjSum ent ix n = u.unAdjval.toInt := by
  obtain ⟨r, hr⟩ : ∃ r, ent.Perm (u :: r) := ⟨_, List.perm_cons_erase hu⟩
  rw [adjSum_perm hr, adjSum_cons, if_pos hat, adjSum_eq_zero ((h.perm hr).tail_not_isAt hat),
    Int.add_zero]

/-- What an adjustment that finds room does: the entry gets another value, goes because the
value is 0, or is made. -/
theorem adjustEnt_cases {ent ent' : List Undo} {ix : Int} {num val : BitVec 16} (hval : val ≠ 0#16)
    (h : adjustEnt ent ix num val = some ent') :
    (∃ u r, ent.Perm (u :: r) ∧ u.isAt ix num.toNat ∧
      ((u.unAdjval + val ≠ 0#16 ∧ ent'.Perm ({ u with unAdjval := u.unAdjval + val } :: r)) ∨
        (u.unAdjval + val = 0#16 ∧ ent'.Perm r))) ∨
    ((∀ u ∈ ent, ¬u.isAt ix num.toNat) ∧ ent.length ≠ semume ∧
      ent' = ent ++ [{ unAdjval := val, unNum := num, unId := ix }]) := by
  rw [adjustEnt] at h
  split at h
  · rename_i i hfind
    obtain ⟨hi, hfor, -⟩ := List.findIdx?_eq_some_iff_getElem.mp hfind
    have hperm : ent.Perm (ent[i] :: ent.eraseIdx i) := (List.getElem_cons_eraseIdx_perm hi).symm
    rw [List.getElem?_eq_getElem hi] at h
    simp only [if_neg hval] at h
    refine .inl ⟨ent[i], ent.eraseIdx i, hperm, (Undo.isFor_iff ..).mp hfor, ?_⟩
    split at h
    · rename_i hne
      obtain rfl := Option.some.inj h
      exact .inl ⟨hne, List.set_perm_cons_eraseIdx hi _⟩
    · rename_i heq
      refine .inr ⟨Decidable.not_not.mp heq, ?_⟩
      split at h
      · rename_i hlast
        rw [List.getLast?_eq_none_iff] at hlast
        subst hlast
        exact absurd hi (Nat.not_lt_zero _)
      · rename_i last hlast
        obtain rfl := Option.some.inj h
        exact AssocList.set_dropLast_perm hi hlast
  · rename_i hfind
    rw [if_neg hval] at h
    split at h
    · cases h
    · rename_i hlen
      refine .inr ⟨fun u hu hat => ?_, hlen, (Option.some.inj h).symm⟩
      have hno := List.findIdx?_eq_none_iff.mp hfind u hu
      rw [(Undo.isFor_iff ..).mpr hat] at hno
      cases hno

/-- The value of a `short`. -/
def FitsShort (v : Int) : Prop := -32768 ≤ v ∧ v ≤ 32767

instance (v : Int) : Decidable (FitsShort v) := inferInstanceAs (Decidable (_ ∧ _))

theorem toInt_sub_of_fits {a b : BitVec 16} (h : FitsShort (a.toInt - b.toInt)) :
    (a - b).toInt = a.toInt - b.toInt := by
  rw [BitVec.toInt_sub]
  exact Int.bmod_eq_of_le_mul_two (by have := h.1; omega) (by have := h.2; omega)

/-- The result of recording operation `op`, where nothing overflows. -/
structure Adjusted (ent ent' : List Undo) (ix : Int) (op : Sembuf) : Prop where
  ok : EntOk ent'
  sum : ∀ j n, adjSum ent' j n = adjSum ent j n -
    if ix = j ∧ op.semNum.toNat = n then op.semOp.toInt else 0
  /-- Entries are for semaphores there were entries for, or that of the operation. -/
  keys : ∀ u ∈ ent', (∃ v ∈ ent, v.key = u.key) ∨ u.isAt ix op.semNum.toNat

theorem toInt_eq_toNat {num : BitVec 16} (h : num.toNat < 32768) : num.toInt = num.toNat := by
  rw [BitVec.toInt_eq_toNat_cond, if_pos (by omega)]

theorem isAt_iff_of_isAt {u : Undo} {ix j : Int} {m n : Nat} (h : u.isAt ix m) :
    u.isAt j n ↔ ix = j ∧ m = n := by
  rw [Undo.isAt, h.1, h.2, Int.natCast_inj]

theorem adjustEnt_adjusted {ent ent' : List Undo} {ix : Int} {op : Sembuf} (hok : EntOk ent)
    (hnum : op.semNum.toNat < 32768) (hop : op.semOp ≠ 0#16)
    (hfit : FitsShort (adjSum ent ix op.semNum.toNat - op.semOp.toInt))
    (h : adjustEnt ent ix op.semNum (-op.semOp) = some ent') : Adjusted ent ent' ix op := by
  have hneg : -op.semOp ≠ 0#16 := by
    intro h0
    exact hop (by rw [← BitVec.neg_neg (x := op.semOp), h0]; rfl)
  rcases adjustEnt_cases hneg h with ⟨u, r, hperm, hat, hres⟩ | ⟨hno, -, rfl⟩
  · have hok' := hok.perm hperm
    have hsum : adjSum ent ix op.semNum.toNat = u.unAdjval.toInt :=
      hok.adjSum_of_mem (hperm.mem_iff.mpr List.mem_cons_self) hat
    rw [hsum] at hfit
    have hval : (u.unAdjval + -op.semOp).toInt = u.unAdjval.toInt - op.semOp.toInt := by
      rw [← BitVec.sub_eq_add_neg]
      exact toInt_sub_of_fits hfit
    have hent (j : Int) (n : Nat) := adjSum_perm hperm j n
    rcases hres with ⟨hne, hperm'⟩ | ⟨hzero, hperm'⟩
    · refine ⟨?_, fun j n => ?_, fun v hv => ?_⟩
      · refine EntOk.perm ⟨?_, ?_⟩ hperm'.symm
        · exact hok'.distinct
        · intro v hv
          rcases List.mem_cons.mp hv with rfl | hv
          · exact hne
          · exact hok'.nonzero v (List.mem_cons_of_mem _ hv)
      · rw [adjSum_perm hperm', hent, adjSum_cons, adjSum_cons]
        have hiff : ({ u with unAdjval := u.unAdjval + -op.semOp } : Undo).isAt j n ↔ u.isAt j n :=
          Iff.rfl
        simp only [hiff, isAt_iff_of_isAt hat, hval]
        split <;> omega
      · rcases List.mem_cons.mp (hperm'.mem_iff.mp hv) with rfl | hv
        · exact .inr hat
        · exact .inl ⟨v, hperm.mem_iff.mpr (List.mem_cons_of_mem _ hv), rfl⟩
    · have hz : u.unAdjval.toInt - op.semOp.toInt = 0 := by
        rw [← hval, hzero]
        rfl
      refine ⟨hok'.tail.perm hperm'.symm, fun j n => ?_, fun v hv => ?_⟩
      · rw [adjSum_perm hperm', hent, adjSum_cons]
        simp only [isAt_iff_of_isAt hat]
        split <;> omega
      · exact .inl ⟨v, hperm.mem_iff.mpr (List.mem_cons_of_mem _ (hperm'.mem_iff.mp hv)), rfl⟩
  · have hat : (Undo.mk (-op.semOp) op.semNum ix).isAt ix op.semNum.toNat :=
      ⟨rfl, toInt_eq_toNat hnum⟩
    have hperm : (ent ++ [Undo.mk (-op.semOp) op.semNum ix]).Perm
        (Undo.mk (-op.semOp) op.semNum ix :: ent) := List.perm_append_singleton _ _
    rw [adjSum_eq_zero hno] at hfit
    have hval : (-op.semOp).toInt = 0 - op.semOp.toInt := by
      rw [← BitVec.zero_sub]
      exact toInt_sub_of_fits hfit
    refine ⟨?_, fun j n => ?_, fun v hv => ?_⟩
    · refine EntOk.perm ⟨?_, ?_⟩ hperm.symm
      · rw [List.map_cons, List.nodup_cons]
        refine ⟨fun hm => ?_, hok.distinct⟩
        obtain ⟨v, hv, hkey⟩ := List.mem_map.mp hm
        rw [Undo.key, Undo.key, Prod.mk.injEq] at hkey
        refine hno v hv ⟨hkey.1, ?_⟩
        rw [hkey.2]
        exact toInt_eq_toNat hnum
      · intro v hv
        rcases List.mem_cons.mp hv with rfl | hv
        · exact hneg
        · exact hok.nonzero v hv
    · rw [adjSum_perm hperm, adjSum_cons]
      simp only [isAt_iff_of_isAt hat, hval]
      split <;> omega
    · rcases List.mem_cons.mp (hperm.mem_iff.mp hv) with rfl | hv
      · exact .inr hat
      · exact .inl ⟨v, hv, rfl⟩

/-! ## Structures -/

/-- The entries of a process. -/
def ents (us : Undos) (pr : Nat) : List Undo := (lookupUndo us pr).getD []

/-- One structure for a process at most, none of them empty, and `semutot` counts them. -/
structure ListOk (us : Undos) : Prop where
  keyed : Keyed us.semuList
  nonempty : ∀ x ∈ us.semuList, x.2 ≠ []
  tot : us.semutot = us.semuList.length

theorem ents_of_mem {us : Undos} (h : ListOk us) {pr : Nat} {ent : List Undo}
    (hm : (pr, ent) ∈ us.semuList) : ents us pr = ent := by
  rw [ents, lookupUndo, (AssocList.mem_iff_lookup h.keyed).mp hm]
  rfl

/-- The entries of one process have become `ent`. -/
structure Put (us us' : Undos) (pr : Nat) (ent : List Undo) : Prop where
  list : ListOk us'
  ents : ∀ p, ents us' p = if p = pr then ent else ents us p

/-- Writing back the entries of a process that has a structure, which may be a new one. -/
theorem putUndo_put {us : Undos} {pr : Nat} {ent : List Undo} (hk : Keyed us.semuList)
    (hne : ∀ x ∈ us.semuList, x.1 ≠ pr → x.2 ≠ []) (htot : us.semutot = us.semuList.length)
    (hl : us.semuList.lookup pr = some ent) (ent' : List Undo) : Put us (putUndo us pr ent') pr ent' := by
  by_cases hnil : ent' = []
  · have hlist : (putUndo us pr ent').semuList = AssocList.remove us.semuList pr := by
      rw [putUndo, if_pos hnil]
      rfl
    have hlook (p : Nat) : (putUndo us pr ent').semuList.lookup p =
        if p = pr then none else us.semuList.lookup p := by
      rw [hlist, AssocList.lookup_remove hk]
    refine ⟨⟨?_, ?_, ?_⟩, fun p => ?_⟩
    · rw [hlist]
      exact AssocList.keyed_remove hk pr
    · intro x hx
      have hxp := (AssocList.mem_iff_lookup (hlist ▸ AssocList.keyed_remove hk pr)).mp hx
      rw [hlook] at hxp
      split at hxp
      · cases hxp
      · rename_i hp
        exact hne x ((AssocList.mem_iff_lookup hk).mpr hxp) hp
    · rw [hlist, AssocList.length_remove hl, putUndo, if_pos hnil, htot]
    · rw [ents, lookupUndo, hlook, ents, lookupUndo]
      split
      · rw [hnil]
        rfl
      · rfl
  · have hlist : (putUndo us pr ent').semuList = AssocList.put us.semuList pr ent' := by
      rw [putUndo, if_neg hnil]
      rfl
    have hlook (p : Nat) : (putUndo us pr ent').semuList.lookup p =
        if p = pr then some ent' else us.semuList.lookup p := by
      rw [hlist, AssocList.lookup_put, hl]
      rfl
    refine ⟨⟨?_, ?_, ?_⟩, fun p => ?_⟩
    · rw [hlist]
      exact AssocList.keyed_put hk pr ent'
    · intro x hx
      have hxp := (AssocList.mem_iff_lookup (hlist ▸ AssocList.keyed_put hk pr ent')).mp hx
      rw [hlook] at hxp
      split at hxp
      · exact Option.some.inj hxp ▸ hnil
      · rename_i hp
        exact hne x ((AssocList.mem_iff_lookup hk).mpr hxp) hp
    · rw [hlist, AssocList.put, List.length_map, putUndo, if_neg hnil, htot]
    · rw [ents, lookupUndo, hlook, ents, lookupUndo]
      split <;> rfl

/-- What the pointer to the structure is after its entries have become `ent`. -/
def ptrTo (ent : List Undo) : Suptr := if ent = [] then .freed [] else .listed

/-- The pointer is not one to freed memory, and says so if there is no structure. -/
def PtrOk (us : Undos) (pr : Nat) (suptr : Suptr) : Prop :=
  suptr = .null ∨ (suptr = .listed ∧ ents us pr ≠ [])

theorem adjustListed_put (us : Undos) {pr : Nat} {ix : Int} {num val : BitVec 16}
    {ent ent' : List Undo} (hk : Keyed us.semuList)
    (hne : ∀ x ∈ us.semuList, x.1 ≠ pr → x.2 ≠ []) (htot : us.semutot = us.semuList.length)
    (hl : us.semuList.lookup pr = some ent) (hadj : adjustEnt ent ix num val = some ent') :
    ∃ us', adjustListed us pr ix num val = (us', ptrTo ent', none) ∧ Put us us' pr ent' := by
  refine ⟨putUndo us pr ent', ?_, putUndo_put hk hne htot hl ent'⟩
  simp only [adjustListed, lookupUndo, hl, Option.getD_some, hadj]
  rfl

theorem semundoAdjust_put {us : Undos} {c : Call} {suptr : Suptr} {num val : BitVec 16}
    {ent' : List Undo} (hok : ListOk us) (hptr : PtrOk us c.pr suptr) (hval : val ≠ 0#16)
    (hroom : ents us c.pr = [] → us.semutot < c.semmnu)
    (hadj : adjustEnt (ents us c.pr) c.semid num val = some ent') :
    ∃ us', semundoAdjust us c suptr num val = some (us', ptrTo ent', none) ∧
      Put us us' c.pr ent' := by
  cases hl : us.semuList.lookup c.pr with
  | some ent =>
      have hent : ents us c.pr = ent := by rw [ents, lookupUndo, hl]; rfl
      rw [hent] at hadj
      obtain ⟨us', heq, hput⟩ := adjustListed_put us hok.keyed (fun x hx _ => hok.nonempty x hx)
        hok.tot hl hadj
      refine ⟨us', ?_, hput⟩
      rcases hptr with rfl | ⟨rfl, -⟩
      · simp only [semundoAdjust, lookupUndo, hl, heq]
      · simp only [semundoAdjust, heq]
  | none =>
      have hent : ents us c.pr = [] := by rw [ents, lookupUndo, hl]; rfl
      rw [hent] at hadj
      have hptr' : suptr = .null := hptr.elim id fun h => absurd hent h.2
      have hroom' := hroom hent
      have hk : Keyed ((c.pr, ([] : List Undo)) :: us.semuList) :=
        AssocList.keyed_cons.mpr ⟨hl, hok.keyed⟩
      obtain ⟨us', heq, hput⟩ := adjustListed_put
        { semuList := (c.pr, []) :: us.semuList, semutot := us.semutot + 1 } hk
        (fun x hx hp => (List.mem_cons.mp hx).elim (fun e => absurd (e ▸ rfl) hp) (hok.nonempty x))
        (by rw [List.length_cons, hok.tot]) List.lookup_cons_self hadj
      refine ⟨us', ?_, hput.list, fun p => ?_⟩
      · simp only [semundoAdjust, hptr', lookupUndo, hl, if_neg hval, semuAlloc,
          if_neg (Nat.ne_of_lt hroom'), heq]
      · rw [hput.ents]
        by_cases hp : p = c.pr
        · rw [if_pos hp, if_pos hp]
        · rw [if_neg hp, if_neg hp, ents, ents, lookupUndo, lookupUndo,
            AssocList.lookup_cons_ne hp]

/-! ## Recording the entries of a vector -/

/-- What operations with `SEM_UNDO` add to a semaphore. -/
def undoSum (n : Nat) : List Sembuf → Int
  | [] => 0
  | op :: rest => (if op.undoes ∧ op.semNum.toNat = n then op.semOp.toInt else 0) + undoSum n rest

/-- The entries of a vector can be recorded one after the other: each total is within a
`short`, there is an entry left for it, and the structure is not freed before the last. -/
def recordFits (ix : Int) : List Sembuf → List Undo → Bool
  | [], _ => true
  | op :: rest, ent =>
    if op.undoes then
      decide (FitsShort (adjSum ent ix op.semNum.toNat - op.semOp.toInt)) &&
      match adjustEnt ent ix op.semNum (-op.semOp) with
      | none => false
      | some ent' => (decide (ent' ≠ []) || !rest.any Sembuf.undoes) && recordFits ix rest ent'
    else recordFits ix rest ent

def Suptr.isFreed : Suptr → Bool
  | .freed _ => true
  | _ => false

/-- Whether the loop that records the entries of a vector works on freed memory. -/
def usesFreed (c : Call) : List Sembuf → Undos → Suptr → Bool
  | [], _, _ => false
  | op :: rest, us, suptr =>
    if op.undoes then
      suptr.isFreed ||
      match semundoAdjust us c suptr op.semNum (-op.semOp) with
      | some (us, suptr, none) => usesFreed c rest us suptr
      | _ => false
    else usesFreed c rest us suptr

/-- What recording the entries of a whole vector does. -/
structure Recorded (us us' : Undos) (pr : Nat) (ix : Int) (ops : List Sembuf) : Prop where
  list : ListOk us'
  others : ∀ p, p ≠ pr → ents us' p = ents us p
  ok : EntOk (ents us' pr)
  sum : ∀ j n, adjSum (ents us' pr) j n = adjSum (ents us pr) j n -
    if ix = j then undoSum n ops else 0
  keys : ∀ u ∈ ents us' pr, (∃ v ∈ ents us pr, v.key = u.key) ∨
    ∃ op ∈ ops, u.isAt ix op.semNum.toNat

theorem semOp_ne_of_undoes {op : Sembuf} (h : op.undoes = true) : op.semOp ≠ 0#16 := by
  rw [Sembuf.undoes, Bool.and_eq_true] at h
  exact of_decide_eq_true h.2

/-- When nothing more is to be recorded the pointer does not matter. -/
theorem recordUndos_none {c : Call} {ops : List Sembuf} (h : ops.any Sembuf.undoes = false) :
    ∀ (i : Nat) (us : Undos) (suptr : Suptr), recordUndos c ops i us suptr = .all us ∧
      usesFreed c ops us suptr = false ∧ ∀ n, undoSum n ops = 0 := by
  induction ops with
  | nil => exact fun i us suptr => ⟨rfl, rfl, fun n => rfl⟩
  | cons op ops ih =>
      intro i us suptr
      rw [List.any_cons, Bool.or_eq_false_iff] at h
      obtain ⟨h1, h2, h3⟩ := ih h.2 (i + 1) us suptr
      refine ⟨?_, ?_, fun n => ?_⟩
      · rw [recordUndos, h.1, if_neg Bool.false_ne_true, h1]
      · rw [usesFreed, h.1, if_neg Bool.false_ne_true, h2]
      · rw [undoSum, h.1, h3]
        simp

theorem Recorded.refl {us : Undos} (hok : ListOk us) {pr : Nat} (hent : EntOk (ents us pr)) {ix : Int}
    {ops : List Sembuf} (h : ∀ n, undoSum n ops = 0) : Recorded us us pr ix ops where
  list := hok
  others := fun _ _ => rfl
  ok := hent
  sum := fun j n => by rw [h]; simp
  keys := fun u hu => .inl ⟨u, hu, rfl⟩

/-- A vector whose entries fit is recorded, exactly, without use of freed memory. -/
theorem recordUndos_fits {c : Call} {ops : List Sembuf} : ∀ {i : Nat} {us : Undos} {suptr : Suptr},
    ListOk us → PtrOk us c.pr suptr → EntOk (ents us c.pr) →
    (∀ op ∈ ops, op.semNum.toNat < 32768) →
    (ops.any Sembuf.undoes = true → ents us c.pr = [] → us.semutot < c.semmnu) →
    recordFits c.semid ops (ents us c.pr) = true →
    ∃ us', recordUndos c ops i us suptr = .all us' ∧ Recorded us us' c.pr c.semid ops ∧
      usesFreed c ops us suptr = false := by
  induction ops with
  | nil =>
      intro i us suptr hok hptr hent hnum hroom hfit
      exact ⟨us, rfl, .refl hok hent fun n => rfl, rfl⟩
  | cons op ops ih =>
      intro i us suptr hok hptr hent hnum hroom hfit
      have hnum' : ∀ op' ∈ ops, op'.semNum.toNat < 32768 :=
        fun op' hop' => hnum op' (List.mem_cons_of_mem _ hop')
      cases hundo : op.undoes with
      | false =>
          rw [recordFits, hundo, if_neg Bool.false_ne_true] at hfit
          obtain ⟨us', hrec, hres, hfree⟩ := ih (i := i + 1) hok hptr hent hnum'
            (fun ha => hroom (by rw [List.any_cons, ha, Bool.or_true])) hfit
          refine ⟨us', ?_, ⟨hres.list, hres.others, hres.ok, fun j n => ?_, fun u hu => ?_⟩, ?_⟩
          · rw [recordUndos, hundo, if_neg Bool.false_ne_true, hrec]
          · rw [hres.sum, undoSum, hundo]
            simp
          · rcases hres.keys u hu with h | ⟨op', hop', hat⟩
            · exact .inl h
            · exact .inr ⟨op', List.mem_cons_of_mem _ hop', hat⟩
          · rw [usesFreed, hundo, if_neg Bool.false_ne_true, hfree]
      | true =>
          have hop := semOp_ne_of_undoes hundo
          have hneg : -op.semOp ≠ 0#16 := fun h0 =>
            hop (by rw [← BitVec.neg_neg (x := op.semOp), h0]; rfl)
          rw [recordFits, hundo, if_pos rfl, Bool.and_eq_true] at hfit
          obtain ⟨hshort, hfit⟩ := hfit
          cases hadj : adjustEnt (ents us c.pr) c.semid op.semNum (-op.semOp) with
          | none =>
              rw [hadj] at hfit
              cases hfit
          | some ent' =>
              rw [hadj, Bool.and_eq_true] at hfit
              obtain ⟨hkeep, hfit⟩ := hfit
              have hone := adjustEnt_adjusted hent (hnum op List.mem_cons_self) hop
                (of_decide_eq_true hshort) hadj
              obtain ⟨us₁, heq, hput⟩ := semundoAdjust_put hok hptr hneg
                (hroom (by rw [List.any_cons, hundo, Bool.true_or])) hadj
              have hents₁ : ents us₁ c.pr = ent' := by rw [hput.ents, if_pos rfl]
              have hnot : suptr.isFreed = false := by
                rcases hptr with rfl | ⟨rfl, -⟩ <;> rfl
              have hfreed : usesFreed c (op :: ops) us suptr = usesFreed c ops us₁ (ptrTo ent') := by
                rw [usesFreed, hundo, if_pos rfl, hnot, Bool.false_or, heq]
              rw [recordUndos, hundo, if_pos rfl, heq, hfreed]
              have hrest : ∃ us', recordUndos c ops (i + 1) us₁ (ptrTo ent') = .all us' ∧
                  Recorded us₁ us' c.pr c.semid ops ∧ usesFreed c ops us₁ (ptrTo ent') = false := by
                by_cases hnil : ent' = []
                · -- the structure is freed, but nothing more is recorded
                  have hnone : ops.any Sembuf.undoes = false := by
                    simpa [hnil] using hkeep
                  obtain ⟨h1, h2, h3⟩ := recordUndos_none (c := c) hnone (i + 1) us₁ (ptrTo ent')
                  exact ⟨us₁, h1, .refl hput.list (hents₁ ▸ hone.ok) h3, h2⟩
                · refine ih (i := i + 1) hput.list (.inr ⟨?_, ?_⟩) ?_ hnum' (fun _ h0 => ?_) ?_
                  · rw [ptrTo, if_neg hnil]
                  · rwa [hents₁]
                  · rw [hents₁]
                    exact hone.ok
                  · rw [hents₁] at h0
                    exact absurd h0 hnil
                  · rwa [hents₁]
              obtain ⟨us', hrec, hres, hfree⟩ := hrest
              refine ⟨us', hrec, ⟨hres.list, fun p hp => ?_, hres.ok, fun j n => ?_, fun u hu => ?_⟩, hfree⟩
              · rw [hres.others p hp, hput.ents, if_neg hp]
              · rw [hres.sum, hents₁, hone.sum, undoSum]
                simp only [hundo, true_and]
                by_cases hj : c.semid = j
                · omega
                · simp only [hj, false_and, if_false]
                  omega
              · rcases hres.keys u hu with ⟨v, hv, hkey⟩ | ⟨op', hop', hat⟩
                · rw [hents₁] at hv
                  rcases hone.keys v hv with ⟨w, hw, hkey'⟩ | hat
                  · exact .inl ⟨w, hw, hkey'.trans hkey⟩
                  · refine .inr ⟨op, List.mem_cons_self, ?_⟩
                    rw [Undo.key, Undo.key, Prod.mk.injEq] at hkey
                    exact ⟨hkey.1 ▸ hat.1, hkey.2 ▸ hat.2⟩
                · exact .inr ⟨op', List.mem_cons_of_mem _ hop', hat⟩

/-! ## Clearing entries -/

section Clear

variable {semid : Int} {ent : List Undo} {i : Nat}

/-- The loop is past the entries before `i`, and none of them is of the set. -/
def Passed (semid : Int) (i : Nat) (ent : List Undo) : Prop :=
  i ≤ ent.length ∧ ∀ u ∈ ent.take i, u.unId ≠ semid

theorem Passed.succ {u : Undo} (h : Passed semid i ent) (hu : ent[i]? = some u)
    (hne : u.unId ≠ semid) : Passed semid (i + 1) ent := by
  obtain ⟨hi, rfl⟩ := List.getElem?_eq_some_iff.mp hu
  refine ⟨hi, fun v hv => ?_⟩
  rw [List.take_succ_eq_append_getElem hi, List.mem_append, List.mem_singleton] at hv
  rcases hv with hv | rfl
  · exact h.2 v hv
  · exact hne

theorem Passed.hole {last : Undo} (h : Passed semid i ent) (hi : i < ent.length) :
    Passed semid i (ent.set i last).dropLast := by
  have hlen : (ent.set i last).dropLast.length = ent.length - 1 := by
    rw [List.length_dropLast, List.length_set]
  have htake : (ent.set i last).dropLast.take i = ent.take i := by
    rw [List.dropLast_eq_take, List.take_take, List.length_set, Nat.min_eq_left (by omega),
      List.take_set_of_le (Nat.le_refl i)]
  refine ⟨by omega, ?_⟩
  rw [htake]
  exact h.2

/-- Clearing a whole set leaves the entries of the other sets. -/
theorem clearLoop_all : ∀ (rounds i : Nat) (ent : List Undo), Passed semid i ent →
    ent.length ≤ i + rounds →
    (clearLoop semid (-1) rounds i ent).Perm (ent.filter fun u => decide (u.unId ≠ semid)) := by
  have hdone : ∀ (i : Nat) (ent : List Undo), Passed semid i ent → ent.length ≤ i →
      ent.Perm (ent.filter fun u => decide (u.unId ≠ semid)) := by
    intro i ent h hle
    have hall := h.2
    rw [List.take_of_length_le hle] at hall
    rw [List.filter_eq_self.mpr fun u hu => decide_eq_true (hall u hu)]
  intro rounds
  induction rounds with
  | zero =>
      intro i ent h hle
      exact hdone i ent h hle
  | succ rounds ih =>
      intro i ent h hle
      rw [clearLoop]
      cases hu : ent[i]? with
      | none => exact hdone i ent h (List.getElem?_eq_none_iff.mp hu)
      | some u =>
          obtain ⟨hi, hget⟩ := List.getElem?_eq_some_iff.mp hu
          by_cases hid : u.unId = semid
          · obtain ⟨last, hlast⟩ : ∃ last, ent.getLast? = some last := by
              cases hl : ent.getLast? with
              | none =>
                  rw [List.getLast?_eq_none_iff.mp hl] at hi
                  exact absurd hi (Nat.not_lt_zero _)
              | some last => exact ⟨last, rfl⟩
            have hperm := AssocList.set_dropLast_perm hi hlast
            simp only [hid, if_true, decide_true, Bool.true_or, hlast, ne_eq, not_true_eq_false,
              if_false]
            refine (ih i _ (h.hole hi) ?_).trans ?_
            · rw [List.length_dropLast, List.length_set]
              omega
            · have hsplit := (List.getElem_cons_eraseIdx_perm hi).symm.filter
                (fun u => decide (u.unId ≠ semid))
              rw [hget, List.filter_cons, decide_eq_false (not_not_intro hid),
                if_neg Bool.false_ne_true] at hsplit
              exact (hperm.filter _).trans hsplit.symm
          · simp only [hid, if_false]
            exact ih (i + 1) ent (h.succ hu hid) (by omega)

/-- `semundo_clear` stops at the first entry of the set, which has to be the right one. -/
def clearFits (semid semnum : Int) (ent : List Undo) : Bool :=
  match ent.find? fun u => decide (u.unId = semid) with
  | none => true
  | some u => decide (u.unNum.toInt = semnum) ||
      ent.all fun v => !(decide (v.unId = semid) && decide (v.unNum.toInt = semnum))

/-- Clearing one semaphore takes out its entry. -/
theorem clearLoop_one {n : Nat} : ∀ (rounds i : Nat) (ent : List Undo), EntOk ent →
    Passed semid i ent → clearFits semid n ent = true → ent.length ≤ i + rounds →
    (clearLoop semid n rounds i ent).Perm (ent.filter fun u => decide (¬u.isAt semid n)) := by
  have hkeep : ∀ ent : List Undo, (∀ u ∈ ent, ¬u.isAt semid n) →
      ent.Perm (ent.filter fun u => decide (¬u.isAt semid n)) := by
    intro ent h
    rw [List.filter_eq_self.mpr fun u hu => decide_eq_true (h u hu)]
  have hdone : ∀ (i : Nat) (ent : List Undo), Passed semid i ent → ent.length ≤ i →
      ent.Perm (ent.filter fun u => decide (¬u.isAt semid n)) := by
    intro i ent h hle
    have hall := h.2
    rw [List.take_of_length_le hle] at hall
    exact hkeep ent fun u hu hat => hall u hu hat.1
  intro rounds
  induction rounds with
  | zero =>
      intro i ent _ h _ hle
      exact hdone i ent h hle
  | succ rounds ih =>
      intro i ent hok h hfit hle
      rw [clearLoop]
      cases hu : ent[i]? with
      | none => exact hdone i ent h (List.getElem?_eq_none_iff.mp hu)
      | some u =>
          obtain ⟨hi, hget⟩ := List.getElem?_eq_some_iff.mp hu
          have hneg : ((n : Nat) : Int) ≠ -1 := by omega
          by_cases hid : u.unId = semid
          · have hfind : ent.find? (fun u => decide (u.unId = semid)) = some u := by
              rw [List.find?_eq_some_iff_getElem]
              refine ⟨decide_eq_true hid, i, hi, hget, fun j hj => ?_⟩
              have hm : ent[j] ∈ ent.take i := List.mem_take_iff_getElem.mpr ⟨j, by omega, rfl⟩
              rw [decide_eq_false (h.2 _ hm)]
              rfl
            simp only [hid, if_true, hneg, decide_false, Bool.false_or, ne_eq, not_false_eq_true]
            by_cases hnum : u.unNum.toInt = (n : Int)
            · have hat : u.isAt semid n := ⟨hid, hnum⟩
              simp only [hnum, decide_true, if_true]
              have hsplit := (List.getElem_cons_eraseIdx_perm hi).symm
              rw [hget] at hsplit
              have hrest := (hok.perm hsplit).tail_not_isAt hat
              have hres : (ent.eraseIdx i).Perm (ent.filter fun u => decide (¬u.isAt semid n)) := by
                refine (hkeep _ hrest).trans ?_
                have hf := hsplit.filter (fun u => decide (¬u.isAt semid n))
                rw [List.filter_cons, decide_eq_false (not_not_intro hat),
                  if_neg Bool.false_ne_true] at hf
                exact hf.symm
              split
              · rename_i hl
                rw [List.getLast?_eq_none_iff.mp hl] at hi
                exact absurd hi (Nat.not_lt_zero _)
              · rename_i last hl
                exact (AssocList.set_dropLast_perm hi hl).trans hres
            · simp only [hnum, decide_false, Bool.false_eq_true, if_false]
              refine hkeep ent fun v hv hat => ?_
              rw [clearFits, hfind] at hfit
              simp only [hnum, decide_false, Bool.false_or, List.all_eq_true] at hfit
              have := hfit v hv
              rw [decide_eq_true hat.1, decide_eq_true hat.2] at this
              cases this
          · simp only [hid, if_false]
            exact ih (i + 1) ent hok (h.succ hu hid) hfit (by omega)

theorem passed_zero : Passed semid 0 ent :=
  ⟨Nat.zero_le _, fun _ hu => absurd hu (by simp)⟩

/-- Entries are cleared in every structure, and structures without any are freed. -/
structure Cleared (us us' : Undos) (gone : Undo → Prop) [DecidablePred gone] : Prop where
  list : ListOk us'
  ents : ∀ pr, (ents us' pr).Perm ((ents us pr).filter fun u => decide (¬gone u))

theorem semundoClear_cleared {us : Undos} (hok : ListOk us) (semnum : Int) (gone : Undo → Prop)
    [DecidablePred gone]
    (h : ∀ x ∈ us.semuList, (clearLoop semid semnum x.2.length 0 x.2).Perm
      (x.2.filter fun u => decide (¬gone u))) : Cleared us (semundoClear us semid semnum) gone := by
  have hlist : (semundoClear us semid semnum).semuList = AssocList.update
      (fun ent => clearLoop semid semnum ent.length 0 ent) (fun ent => decide (ent ≠ []))
      us.semuList := rfl
  refine ⟨⟨?_, fun x hx => ?_, ?_⟩, fun pr => ?_⟩
  · rw [hlist]
    exact AssocList.keyed_update _ _ hok.keyed
  · rw [hlist, AssocList.update, List.mem_filter] at hx
    exact of_decide_eq_true hx.2
  · have hle : (semundoClear us semid semnum).semuList.length ≤ us.semuList.length := by
      exact (List.length_filter_le _ _).trans (Nat.le_of_eq (List.length_map _))
    have htot : (semundoClear us semid semnum).semutot =
        us.semutot - (us.semuList.length - (semundoClear us semid semnum).semuList.length) := by
      simp only [semundoClear, List.length_map]
    rw [htot, hok.tot]
    omega
  · rw [ents, lookupUndo, hlist, AssocList.lookup_update _ _ hok.keyed, ents, lookupUndo]
    cases hl : us.semuList.lookup pr with
    | none => exact List.Perm.refl _
    | some ent =>
        have hperm := h (pr, ent) ((AssocList.mem_iff_lookup hok.keyed).mpr hl)
        simp only [Option.map_some, Option.filter_some, Option.getD_some]
        split
        · exact hperm
        · rename_i hnil
          have hnil' : clearLoop semid semnum ent.length 0 ent = [] := by simpa using hnil
          rw [hnil'] at hperm
          exact hperm

end Clear

end Obsd.Semop
