import Obsd.PfState

/-!
# Keys and their states

What holds between the states' pointers to their keys and the keys' lists of
states, and that attaching and detaching keep it. While a state is put in
the place of a closing one, both are on the list for a moment; so the
invariant allows for one state that may stand in the way of others.
-/

namespace Obsd.PfState

variable {t t' : Table} {s a b : Nat} {k : StateKey} {idx : Idx} {x : Option Nat}

/-! ## The invariant -/

/-- The list of states of a key; empty for a key that is not in the tree. -/
def itemsOf (t : Table) (k : StateKey) : List Nat := (t.statetbl k).getD []

def HasKey (t : Table) (s : Nat) (k : StateKey) : Prop :=
  t.key .wire s = some k ∨ t.key .stack s = some k

theorem hasKey_iff (idx : Idx) : HasKey t s k ↔ t.key idx s = some k ∨ t.key idx.other s = some k := by
  cases idx with
  | wire => exact Iff.rfl
  | stack => exact or_comm

/-- Every key in the tree has states, once each, interface-bound ones first; two states of a
key differ in interface or direction, `x` apart; and a key has the states that have the key. -/
structure KeyInv (t : Table) (x : Option Nat) : Prop where
  nonempty : ∀ k, t.statetbl k ≠ some []
  nodup : ∀ k, (itemsOf t k).Nodup
  sorted : ∀ k, (itemsOf t k).Pairwise fun a b => t.kif a = .all → t.kif b = .all
  apart : ∀ k, ∀ a ∈ itemsOf t k, ∀ b ∈ itemsOf t k, a ≠ b → sameIf t a b = true →
    x = some a ∨ x = some b
  items : ∀ k s, s ∈ itemsOf t k ↔ HasKey t s k

/-- The fields the invariant is about. -/
structure SameKeys (t t' : Table) : Prop where
  statetbl : t'.statetbl = t.statetbl
  kif : t'.kif = t.kif
  direction : t'.direction = t.direction
  key : t'.key = t.key

theorem KeyInv.congr (h : KeyInv t x) (hs : SameKeys t t') : KeyInv t' x := by
  have hitems : ∀ k, itemsOf t' k = itemsOf t k := fun k => by
    rw [itemsOf, itemsOf, hs.statetbl]
  have hsame : ∀ a b, sameIf t' a b = sameIf t a b := fun a b => by
    rw [sameIf, sameIf, hs.kif, hs.direction]
  refine ⟨fun k => ?_, fun k => ?_, fun k => ?_, fun k a ha b hb hne hab => ?_, fun k s => ?_⟩
  · rw [hs.statetbl]
    exact h.nonempty k
  · rw [hitems]
    exact h.nodup k
  · rw [hitems, hs.kif]
    exact h.sorted k
  · rw [hitems] at ha hb
    rw [hsame] at hab
    exact h.apart k a ha b hb hne hab
  · rw [hitems, h.items, HasKey, HasKey, hs.key]

theorem KeyInv.weaken (h : KeyInv t none) (x : Option Nat) : KeyInv t x where
  nonempty := h.nonempty
  nodup := h.nodup
  sorted := h.sorted
  apart k a ha b hb hne hab := by
    obtain h | h := h.apart k a ha b hb hne hab
    · cases h
    · cases h
  items := h.items

/-- The exception is needed only as long as the state has a key. -/
theorem KeyInv.strengthen (h : KeyInv t (some a)) (ha : ∀ k, ¬ HasKey t a k) : KeyInv t none where
  nonempty := h.nonempty
  nodup := h.nodup
  sorted := h.sorted
  apart k c hc b hb hne hab := by
    obtain he | he := h.apart k c hc b hb hne hab
    · obtain rfl := Option.some.inj he
      exact absurd ((h.items k a).mp hc) (ha k)
    · obtain rfl := Option.some.inj he
      exact absurd ((h.items k a).mp hb) (ha k)
  items := h.items

/-- What a state that has no key is bound to does not matter. -/
theorem KeyInv.rebind (h : KeyInv t x) (hs : ∀ k, ¬ HasKey t s k) (kif : Kif) (dir : Dir)
    (htbl : t'.statetbl = t.statetbl) (hkey : t'.key = t.key)
    (hkif : t'.kif = Function.update t.kif s kif)
    (hdir : t'.direction = Function.update t.direction s dir) : KeyInv t' x := by
  have hitems : ∀ k, itemsOf t' k = itemsOf t k := fun k => by rw [itemsOf, itemsOf, htbl]
  have hne : ∀ k, ∀ a ∈ itemsOf t k, a ≠ s := by
    rintro k a ha rfl
    exact hs k ((h.items k a).mp ha)
  have hkif' : ∀ k, ∀ a ∈ itemsOf t k, t'.kif a = t.kif a := fun k a ha => by
    rw [hkif, Function.update_of_ne (hne k a ha)]
  have hdir' : ∀ k, ∀ a ∈ itemsOf t k, t'.direction a = t.direction a := fun k a ha => by
    rw [hdir, Function.update_of_ne (hne k a ha)]
  refine ⟨fun k => ?_, fun k => ?_, fun k => ?_, fun k a ha b hb hab hsame => ?_, fun k a => ?_⟩
  · rw [htbl]
    exact h.nonempty k
  · rw [hitems]
    exact h.nodup k
  · rw [hitems]
    refine (h.sorted k).imp_of_mem fun ha hb hab => ?_
    rw [hkif' k _ ha, hkif' k _ hb]
    exact hab
  · rw [hitems] at ha hb
    refine h.apart k a ha b hb hab ?_
    rwa [sameIf, hkif' k a ha, hkif' k b hb, hdir' k a ha, hdir' k b hb] at hsame
  · rw [hitems, h.items, HasKey, HasKey, hkey]

/-! ## Detaching -/

theorem getD_guard (l : List Nat) : (if l = [] then none else some l : Option (List Nat)).getD [] = l := by
  split
  · rename_i h
    rw [h]
    rfl
  · rfl

/-- What `pf_state_key_detach` does when there is a key. -/
theorem keyDetach_eq (hk : t.key idx s = some k) :
    pfStateKeyDetach t s idx = { t with
      statetbl := Function.update t.statetbl k
        (if (itemsOf t k).erase s = [] then none else some ((itemsOf t k).erase s))
      key := Function.update t.key idx (Function.update (t.key idx) s none) } := by
  rw [pfStateKeyDetach, hk]
  rfl

theorem update_key_same (t : Table) (idx : Idx) (s : Nat) (v : Option StateKey) :
    Function.update t.key idx (Function.update (t.key idx) s v) idx s = v := by
  rw [Function.update_self, Function.update_self]

theorem update_key_other (t : Table) (idx : Idx) (s : Nat) (v : Option StateKey) (a : Nat) :
    Function.update t.key idx (Function.update (t.key idx) s v) idx.other a = t.key idx.other a := by
  rw [Function.update_of_ne]
  cases idx <;> exact fun h => nomatch h

theorem update_key_ne (t : Table) (idx idx' : Idx) {s a : Nat} (v : Option StateKey) (h : a ≠ s) :
    Function.update t.key idx (Function.update (t.key idx) s v) idx' a = t.key idx' a := by
  by_cases hidx : idx' = idx
  · subst hidx
    rw [Function.update_self, Function.update_of_ne h]
  · rw [Function.update_of_ne hidx]

/-- Detaching one of two different keys. -/
theorem keyDetach_inv (h : KeyInv t x)
    (hother : t.key idx s = none ∨ t.key idx.other s ≠ t.key idx s) :
    KeyInv (pfStateKeyDetach t s idx) x := by
  cases hk : t.key idx s with
  | none =>
    have hsame : pfStateKeyDetach t s idx = t := by rw [pfStateKeyDetach, hk]
    rw [hsame]
    exact h
  | some k =>
    rw [hk] at hother
    have hne : t.key idx.other s ≠ some k := hother.resolve_left nofun
    rw [keyDetach_eq hk]
    generalize hl : (itemsOf t k).erase s = l
    obtain ⟨t₁, ht₁⟩ : ∃ t₁, t₁ = { t with
      statetbl := Function.update t.statetbl k (if l = [] then none else some l)
      key := Function.update t.key idx (Function.update (t.key idx) s none) } := ⟨_, rfl⟩
    rw [← ht₁]
    have htbl : t₁.statetbl = Function.update t.statetbl k (if l = [] then none else some l) := by
      rw [ht₁]
    have hkey : t₁.key = Function.update t.key idx (Function.update (t.key idx) s none) := by rw [ht₁]
    have hkif : t₁.kif = t.kif := by rw [ht₁]
    have hdir : t₁.direction = t.direction := by rw [ht₁]
    have hself : itemsOf t₁ k = l := by
      rw [itemsOf, htbl, Function.update_self]
      exact getD_guard l
    have hrest : ∀ k', k' ≠ k → itemsOf t₁ k' = itemsOf t k' := fun k' hk' => by
      rw [itemsOf, htbl, Function.update_of_ne hk', itemsOf]
    have hsub : ∀ k', (itemsOf t₁ k').Sublist (itemsOf t k') := by
      intro k'
      by_cases hk' : k' = k
      · rw [hk', hself, ← hl]
        exact List.erase_sublist
      · rw [hrest k' hk']
    refine ⟨fun k' => ?_, fun k' => (h.nodup k').sublist (hsub k'), fun k' => ?_,
      fun k' a ha b hb hab hsame => ?_, fun k' a => ?_⟩
    · rw [htbl]
      by_cases hk' : k' = k
      · rw [hk', Function.update_self]
        split
        · nofun
        · rename_i hnil
          exact fun he => hnil (Option.some.inj he)
      · rw [Function.update_of_ne hk']
        exact h.nonempty k'
    · rw [hkif]
      exact (h.sorted k').sublist (hsub k')
    · refine h.apart k' a ((hsub k').subset ha) b ((hsub k').subset hb) hab ?_
      rwa [sameIf, hkif, hdir] at hsame
    · rw [hasKey_iff idx, hkey, update_key_other]
      by_cases ha : a = s
      · subst ha
        rw [update_key_same]
        by_cases hk' : k' = k
        · subst hk'
          rw [hself, ← hl]
          refine iff_of_false (fun hin => ?_) ?_
          · exact ((h.nodup k').mem_erase_iff.mp hin).1 rfl
          · rintro (he | he)
            · cases he
            · exact hne he
        · rw [hrest k' hk', h.items, hasKey_iff idx, hk]
          refine ⟨fun he => .inr ?_, fun he => .inr (he.resolve_left nofun)⟩
          exact he.resolve_left fun he => hk' (Option.some.inj he).symm
      · rw [update_key_ne t idx idx none ha, ← hasKey_iff idx, ← h.items]
        by_cases hk' : k' = k
        · subst hk'
          rw [hself, ← hl, (h.nodup k').mem_erase_iff]
          exact and_iff_right ha
        · rw [hrest k' hk']

/-- `t'` is `t` with other keys for `s`. -/
structure Rekeyed (t t' : Table) (s : Nat) : Prop where
  eq : t' = { t with statetbl := t'.statetbl, key := t'.key }
  key : ∀ idx a, a ≠ s → t'.key idx a = t.key idx a

theorem Rekeyed.refl (t : Table) (s : Nat) : Rekeyed t t s := ⟨rfl, fun _ _ _ => rfl⟩

theorem Rekeyed.trans {t₁ t₂ t₃ : Table} (h : Rekeyed t₁ t₂ s) (h' : Rekeyed t₂ t₃ s) :
    Rekeyed t₁ t₃ s where
  eq := by
    obtain ⟨he, -⟩ := h
    obtain ⟨he', -⟩ := h'
    rw [he] at he'
    exact he'
  key idx a ha := (h'.key idx a ha).trans (h.key idx a ha)

theorem keyDetach_rekeyed (t : Table) (s : Nat) (idx : Idx) :
    Rekeyed t (pfStateKeyDetach t s idx) s ∧ (pfStateKeyDetach t s idx).key idx s = none
      ∧ (pfStateKeyDetach t s idx).key idx.other s = t.key idx.other s := by
  cases hk : t.key idx s with
  | none =>
    have hsame : pfStateKeyDetach t s idx = t := by rw [pfStateKeyDetach, hk]
    rw [hsame]
    exact ⟨.refl t s, hk, rfl⟩
  | some k =>
    rw [keyDetach_eq hk]
    exact ⟨⟨rfl, fun idx' a ha => update_key_ne t idx idx' none ha⟩, update_key_same t idx s none,
      update_key_other t idx s none s⟩

theorem forgetWire_rekeyed (t : Table) (s : Nat) :
    Rekeyed t (forgetWire t s) s ∧ (forgetWire t s).key .stack s = t.key .stack s := by
  rw [forgetWire]
  split
  · exact ⟨⟨rfl, fun idx' a ha => update_key_ne t .wire idx' none ha⟩,
      update_key_other t .wire s none s⟩
  · exact ⟨.refl t s, rfl⟩

/-- A key that is both is still one of the two. -/
theorem forgetWire_inv (h : KeyInv t x) :
    KeyInv (forgetWire t s) x ∧ ((forgetWire t s).key .stack s = none
      ∨ (forgetWire t s).key .wire s ≠ (forgetWire t s).key .stack s) := by
  rw [forgetWire]
  split
  · rename_i heq
    refine ⟨⟨h.nonempty, h.nodup, h.sorted, h.apart, fun k a => ?_⟩, ?_⟩
    · have hitems := h.items k a
      change a ∈ itemsOf t k ↔ _
      rw [hitems, hasKey_iff .wire, hasKey_iff .wire]
      change _ ↔ Function.update t.key .wire (Function.update (t.key .wire) s none) .wire a = some k
        ∨ Function.update t.key .wire (Function.update (t.key .wire) s none) Idx.wire.other a = some k
      rw [update_key_other]
      by_cases ha : a = s
      · subst ha
        rw [update_key_same, heq]
        exact ⟨fun he => .inr (he.elim id id), fun he => .inr (he.resolve_left nofun)⟩
      · rw [update_key_ne t .wire .wire none ha]
    · change Function.update t.key .wire (Function.update (t.key .wire) s none) Idx.wire.other s = none
        ∨ Function.update t.key .wire (Function.update (t.key .wire) s none) .wire s
          ≠ Function.update t.key .wire (Function.update (t.key .wire) s none) Idx.wire.other s
      rw [update_key_same, update_key_other]
      cases t.key Idx.wire.other s with
      | none => exact .inl rfl
      | some k => exact .inr nofun
  · rename_i hne
    exact ⟨h, .inr hne⟩

theorem detachState_spec (h : KeyInv t x) (s : Nat) :
    KeyInv (pfDetachState t s) x ∧ Rekeyed t (pfDetachState t s) s
      ∧ ∀ idx, (pfDetachState t s).key idx s = none := by
  obtain ⟨hf, hfd⟩ := forgetWire_inv (s := s) h
  obtain ⟨hfr, -⟩ := forgetWire_rekeyed t s
  have hs : KeyInv (pfStateKeyDetach (forgetWire t s) s .stack) x := keyDetach_inv hf hfd
  obtain ⟨hsr, hsnone, -⟩ := keyDetach_rekeyed (forgetWire t s) s .stack
  obtain ⟨hwr, hwnone, hwother⟩ :=
    keyDetach_rekeyed (pfStateKeyDetach (forgetWire t s) s .stack) s .wire
  have hw : KeyInv (pfDetachState t s) x := by
    refine keyDetach_inv hs ?_
    cases hk : (pfStateKeyDetach (forgetWire t s) s .stack).key .wire s with
    | none => exact .inl rfl
    | some k =>
      refine .inr ?_
      change (pfStateKeyDetach (forgetWire t s) s .stack).key .stack s ≠ _
      rw [hsnone]
      nofun
  refine ⟨hw, (hfr.trans hsr).trans hwr, fun idx => ?_⟩
  cases idx with
  | wire => exact hwnone
  | stack => exact hwother.trans hsnone

/-! ## Unlinking -/

theorem srcTreeRemoveState_frame (t : Table) (s : Nat) :
    pfSrcTreeRemoveState t s = { t with
      node := (pfSrcTreeRemoveState t s).node
      srcNodes := (pfSrcTreeRemoveState t s).srcNodes } := by
  have hfold : ∀ (l : List Nat) (t : Table), l.foldl (fun t n => dropSrcNode t s n) t
      = { t with node := (l.foldl (fun t n => dropSrcNode t s n) t).node } := by
    intro l
    induction l with
    | nil =>
      intro t
      rfl
    | cons n l ih =>
      intro t
      rw [List.foldl_cons, ih]
      rfl
  unfold pfSrcTreeRemoveState
  rw [hfold]

/-- Nor does it matter for the source nodes where else the state is. -/
theorem srcTreeRemoveState_comm (t : Table) (s : Nat) (tbl : StateKey → Option (List Nat))
    (key : Idx → Nat → Option StateKey) (peers : Nat → BitVec 8 × BitVec 8) (ids : List Nat)
    (u : Nat → Bool) :
    pfSrcTreeRemoveState { t with
      statetbl := tbl, key := key, peers := peers, treeId := ids, unlinked := u } s
      = { pfSrcTreeRemoveState t s with
        statetbl := tbl, key := key, peers := peers, treeId := ids, unlinked := u } := by
  have hfold : ∀ (l : List Nat) (t : Table),
      l.foldl (fun t n => dropSrcNode t s n) { t with
        statetbl := tbl, key := key, peers := peers, treeId := ids, unlinked := u }
        = { l.foldl (fun t n => dropSrcNode t s n) t with
          statetbl := tbl, key := key, peers := peers, treeId := ids, unlinked := u } := by
    intro l
    induction l with
    | nil =>
      intro t
      rfl
    | cons n l ih =>
      intro t
      exact ih (dropSrcNode t s n)
  unfold pfSrcTreeRemoveState
  rw [hfold]

/-- What `pf_unlink_state` leaves: the state without keys and out of the tree of ids. -/
structure Unlinked (t t' : Table) (s : Nat) : Prop where
  eq : t' = { pfSrcTreeRemoveState t s with
    statetbl := t'.statetbl
    key := t'.key
    treeId := t.treeId.erase s
    unlinked := Function.update t.unlinked s true }
  key : ∀ idx a, a ≠ s → t'.key idx a = t.key idx a
  none : ∀ idx, t'.key idx s = none

theorem unlinkState_spec (h : KeyInv t x) (s : Nat) :
    KeyInv (pfUnlinkState t s) x ∧ Unlinked t (pfUnlinkState t s) s := by
  have hu : pfUnlinkState t s = pfDetachState { pfSrcTreeRemoveState t s with
      treeId := t.treeId.erase s, unlinked := Function.update t.unlinked s true } s := by
    have hcomm := srcTreeRemoveState_comm t s t.statetbl t.key t.peers (t.treeId.erase s)
      (Function.update t.unlinked s true)
    have hframe := srcTreeRemoveState_frame t s
    rw [hframe] at hcomm
    rw [hframe, ← hcomm]
    rfl
  have hframe := srcTreeRemoveState_frame t s
  have hkeys : KeyInv { pfSrcTreeRemoveState t s with
      treeId := t.treeId.erase s, unlinked := Function.update t.unlinked s true } x := by
    refine h.congr ?_
    rw [hframe]
    exact ⟨rfl, rfl, rfl, rfl⟩
  obtain ⟨hinv, hre, hnone⟩ := detachState_spec hkeys s
  rw [hu]
  refine ⟨hinv, ⟨hre.eq, fun idx a ha => ?_, hnone⟩⟩
  rw [hre.key idx a ha, hframe]

/-! ## Attaching -/

theorem sameIf_comm (t : Table) (a b : Nat) : sameIf t a b = sameIf t b a := by
  rw [sameIf, sameIf, decide_eq_decide.mpr (eq_comm (a := t.kif a)),
    decide_eq_decide.mpr (eq_comm (a := t.direction a))]

theorem sameIf_trans {c : Nat} (h : sameIf t a b = true) (h' : sameIf t b c = true) :
    sameIf t a c = true := by
  rw [sameIf, Bool.and_eq_true, decide_eq_true_eq, decide_eq_true_eq] at h h' ⊢
  exact ⟨h.1.trans h'.1, h.2.trans h'.2⟩

theorem attachScan_of_none (tcp : Bool) (l : List Nat) : ∀ (t : Table) (olds : Option Nat),
    (∀ a ∈ l, sameIf t a s = false) → attachScan tcp s l t olds = (t, some olds) := by
  induction l with
  | nil =>
    intro t olds _
    rfl
  | cons a l ih =>
    intro t olds h
    rw [attachScan, h a List.mem_cons_self, if_neg Bool.false_ne_true]
    exact ih t olds fun b hb => h b (List.mem_cons_of_mem _ hb)

/-- The table with a state marked as closed. -/
def markClosed (t : Table) (a : Nat) : Table :=
  { t with peers := Function.update t.peers a (tcpsClosed, tcpsClosed) }

/-- With at most one state of the key in the way, the loop finds it. -/
theorem attachScan_eq (tcp : Bool) (t : Table) (l : List Nat) (hnd : l.Nodup)
    (hone : ∀ a ∈ l, ∀ b ∈ l, sameIf t a s = true → sameIf t b s = true → a = b) :
    ∀ olds, attachScan tcp s l t olds =
      match l.find? fun a => sameIf t a s with
      | none => (t, some olds)
      | some a => if tcp && closing t a then (markClosed t a, some (some a)) else (t, none) := by
  induction l with
  | nil =>
    intro olds
    rfl
  | cons a l ih =>
    intro olds
    obtain ⟨hna, hnd⟩ := List.nodup_cons.mp hnd
    cases ha : sameIf t a s with
    | true =>
      rw [attachScan, ha, if_pos rfl, List.find?_cons_of_pos (p := fun a => sameIf t a s) ha]
      dsimp only
      by_cases hc : (tcp && closing t a) = true
      · rw [if_pos hc, if_pos hc]
        refine attachScan_of_none tcp l (markClosed t a) (some a) fun b hb => ?_
        cases hb' : sameIf (markClosed t a) b s with
        | false => rfl
        | true =>
          have hab := hone a List.mem_cons_self b (List.mem_cons_of_mem _ hb) ha hb'
          exact absurd (hab ▸ hb) hna
      · rw [if_neg hc, if_neg hc]
    | false =>
      rw [attachScan, ha, if_neg Bool.false_ne_true,
        List.find?_cons_of_neg (by rw [ha]; exact Bool.false_ne_true)]
      exact ih hnd (fun b hb c hc => hone b (List.mem_cons_of_mem _ hb) c (List.mem_cons_of_mem _ hc))
        olds

/-- The state of a key that is in the way of `s`. -/
def inWay (t : Table) (s : Nat) (k : StateKey) : Option Nat :=
  (itemsOf t k).find? fun a => sameIf t a s

theorem KeyInv.attachScan_eq (h : KeyInv t none) (tcp : Bool) (s : Nat) (k : StateKey) :
    attachScan tcp s (itemsOf t k) t none =
      match inWay t s k with
      | none => (t, some none)
      | some a => if tcp && closing t a then (markClosed t a, some (some a)) else (t, none) := by
  refine PfState.attachScan_eq tcp t _ (h.nodup k) (fun a ha b hb has hbs => ?_) none
  by_contra hne
  have hab := sameIf_trans has (sameIf_comm t b s ▸ hbs)
  obtain he | he := h.apart k a ha b hb hne hab
  · cases he
  · cases he

/-- The table with `s` on the list of a key that it has as well. -/
def putItem (t : Table) (s : Nat) (idx : Idx) (k : StateKey) : Table :=
  insertItem (setKey t s idx k) s k

theorem putItem_statetbl (t : Table) (s : Nat) (idx : Idx) (k : StateKey) :
    (putItem t s idx k).statetbl = Function.update t.statetbl k
      (some (if t.kif s = .all then itemsOf t k ++ [s] else s :: itemsOf t k)) := by
  have hset : ((setKey t s idx k).statetbl k).getD [] = itemsOf t k := by
    rw [setKey]
    dsimp only
    rw [Function.update_self, Option.getD_some, itemsOf]
  rw [putItem, insertItem]
  rw [hset]
  exact Function.update_idem _ _ _

theorem itemsOf_putItem (t : Table) (s : Nat) (idx : Idx) (k k' : StateKey) :
    itemsOf (putItem t s idx k) k' =
      if k' = k then (if t.kif s = .all then itemsOf t k ++ [s] else s :: itemsOf t k)
      else itemsOf t k' := by
  by_cases hk : k' = k
  · rw [if_pos hk, hk, itemsOf, putItem_statetbl, Function.update_self, Option.getD_some]
  · rw [if_neg hk, itemsOf, putItem_statetbl, Function.update_of_ne hk, itemsOf]

theorem putItem_rekeyed (t : Table) (s : Nat) (idx : Idx) (k : StateKey) :
    Rekeyed t (putItem t s idx k) s ∧ (putItem t s idx k).key idx s = some k
      ∧ (putItem t s idx k).key idx.other s = t.key idx.other s :=
  ⟨⟨rfl, fun idx' _ ha => update_key_ne t idx idx' (some k) ha⟩, update_key_same t idx s (some k),
    update_key_other t idx s (some k) s⟩

/-- A state gets onto the list of a key, where only `x` is in its way. -/
theorem putItem_inv (h : KeyInv t x) (hnone : t.key idx s = none) (hno : ¬ HasKey t s k)
    (hway : ∀ a ∈ itemsOf t k, sameIf t a s = true → x = some a) :
    KeyInv (putItem t s idx k) x := by
  have hmem : ∀ k' a, a ∈ itemsOf (putItem t s idx k) k' ↔ a ∈ itemsOf t k' ∨ (k' = k ∧ a = s) := by
    intro k' a
    rw [itemsOf_putItem]
    by_cases hk : k' = k
    · subst hk
      rw [if_pos rfl]
      split
      · rw [List.mem_append, List.mem_singleton]
        exact or_congr_right ⟨fun he => ⟨rfl, he⟩, fun he => he.2⟩
      · rw [List.mem_cons, or_comm]
        exact or_congr_right ⟨fun he => ⟨rfl, he⟩, fun he => he.2⟩
    · rw [if_neg hk]
      exact ⟨.inl, fun he => he.resolve_right fun hk' => hk hk'.1⟩
  have hns : s ∉ itemsOf t k := fun hin => hno ((h.items k s).mp hin)
  have hlist : ∀ k', k' ≠ k → itemsOf (putItem t s idx k) k' = itemsOf t k' := fun k' hk' => by
    rw [itemsOf_putItem, if_neg hk']
  refine ⟨fun k' => ?_, fun k' => ?_, fun k' => ?_, fun k' a ha b hb hab hsame => ?_, fun k' a => ?_⟩
  · by_cases hk : k' = k
    · rw [hk, putItem_statetbl, Function.update_self]
      intro he
      have hnil := Option.some.inj he
      split at hnil
      · exact List.concat_ne_nil _ _ hnil
      · cases hnil
    · rw [putItem_statetbl, Function.update_of_ne hk]
      exact h.nonempty k'
  · by_cases hk : k' = k
    · subst hk
      rw [itemsOf_putItem, if_pos rfl]
      split
      · rw [List.nodup_append']
        refine ⟨h.nodup k', List.nodup_singleton s, fun a ha hs => ?_⟩
        exact hns (List.mem_singleton.mp hs ▸ ha)
      · exact List.nodup_cons.mpr ⟨hns, h.nodup k'⟩
    · rw [hlist k' hk]
      exact h.nodup k'
  · by_cases hk : k' = k
    · subst hk
      rw [itemsOf_putItem, if_pos rfl]
      split
      · rename_i hall
        refine List.pairwise_append.mpr ⟨h.sorted k', List.pairwise_singleton _ _, fun a _ b hb _ => ?_⟩
        rw [List.mem_singleton.mp hb]
        exact hall
      · rename_i hbound
        exact List.pairwise_cons.mpr ⟨fun b _ hall => absurd hall hbound, h.sorted k'⟩
    · rw [hlist k' hk]
      exact h.sorted k'
  · -- of two states in each other's way, the new one may be one
    obtain ha | ⟨hk, has⟩ := (hmem k' a).mp ha
    · obtain hb | ⟨hk, hbs⟩ := (hmem k' b).mp hb
      · exact h.apart k' a ha b hb hab hsame
      · rw [hk] at ha
        rw [hbs] at hsame
        exact .inl (hway a ha hsame)
    · obtain hb | ⟨-, hbs⟩ := (hmem k' b).mp hb
      · rw [hk] at hb
        rw [has, sameIf_comm] at hsame
        exact .inr (hway b hb hsame)
      · exact absurd (has.trans hbs.symm) hab
  · obtain ⟨hre, hself, hother⟩ := putItem_rekeyed t s idx k
    rw [hmem, h.items, hasKey_iff idx, hasKey_iff idx]
    by_cases ha : a = s
    · subst ha
      rw [hself, hother, hnone]
      constructor
      · rintro (he | he)
        · exact .inr (he.resolve_left nofun)
        · exact .inl (congrArg some he.1.symm)
      · rintro (he | he)
        · exact .inr ⟨(Option.some.inj he).symm, rfl⟩
        · exact .inl (.inr he)
    · rw [hre.key idx a ha, hre.key idx.other a ha]
      exact ⟨fun he => he.resolve_right fun he => ha he.2, .inl⟩

/-- A key set and taken back leaves no trace. -/
theorem detach_setKey (h : KeyInv t x) (hnone : t.key idx s = none) (hno : ¬ HasKey t s k) :
    pfStateKeyDetach (setKey t s idx k) s idx = t := by
  have hns : s ∉ itemsOf t k := fun hin => hno ((h.items k s).mp hin)
  have hk : (setKey t s idx k).key idx s = some k := update_key_same t idx s (some k)
  have hitems : itemsOf (setKey t s idx k) k = itemsOf t k := by
    change (Function.update t.statetbl k (some (itemsOf t k)) k).getD [] = _
    rw [Function.update_self, Option.getD_some]
  have htbl : (if itemsOf t k = [] then none else some (itemsOf t k)) = t.statetbl k := by
    cases htk : t.statetbl k with
    | none =>
      have hnil : itemsOf t k = [] := by
        rw [itemsOf, htk]
        rfl
      rw [if_pos hnil]
    | some l =>
      have hl : itemsOf t k = l := by
        rw [itemsOf, htk]
        rfl
      rw [hl, if_neg fun hnil => h.nonempty k (by rw [htk, hnil])]
  rw [keyDetach_eq hk, hitems, List.erase_of_not_mem hns, htbl]
  have hstatetbl : Function.update (setKey t s idx k).statetbl k (t.statetbl k) = t.statetbl := by
    change Function.update (Function.update t.statetbl k _) k (t.statetbl k) = _
    rw [Function.update_idem, Function.update_eq_self]
  have hkeys : Function.update (setKey t s idx k).key idx
      (Function.update ((setKey t s idx k).key idx) s none) = t.key := by
    change Function.update (Function.update t.key idx _) idx
      (Function.update (Function.update t.key idx (Function.update (t.key idx) s (some k)) idx) s none) = _
    rw [Function.update_self, Function.update_idem, Function.update_idem, ← hnone,
      Function.update_eq_self, Function.update_eq_self]
  rw [hstatetbl, hkeys]
  rfl

/-- Whether the state in the way has to go. -/
def yields (t : Table) (k : StateKey) (a : Nat) : Bool :=
  decide (k.proto = ipprotoTcp) && closing t a

/-- `pf_state_key_attach`, case by case. -/
theorem keyAttach_eq (h : KeyInv t none) (hnone : t.key idx s = none) (hno : ¬ HasKey t s k)
    (itemOk : Bool) :
    pfStateKeyAttach t k s idx itemOk =
      match inWay t s k with
      | none => if itemOk then (putItem t s idx k, true) else (t, false)
      | some a =>
        if yields t k a then
          if itemOk then (pfUnlinkState (putItem (markClosed t a) s idx k) a, true)
          else (markClosed t a, false)
        else (t, false) := by
  have hscan := h.attachScan_eq (decide (k.proto = ipprotoTcp)) s k
  rw [pfStateKeyAttach, ← itemsOf, hscan]
  cases hway : inWay t s k with
  | none =>
    dsimp only
    cases itemOk with
    | true => rfl
    | false =>
      rw [if_neg Bool.false_ne_true, if_neg Bool.false_ne_true, detach_setKey h hnone hno]
  | some a =>
    dsimp only
    have hy : (decide (k.proto = ipprotoTcp) && closing t a) = yields t k a := rfl
    rw [hy]
    cases yields t k a with
    | false => rfl
    | true =>
      rw [if_pos rfl, if_pos rfl]
      dsimp only
      cases itemOk with
      | true => rfl
      | false =>
        rw [if_neg Bool.false_ne_true, if_neg Bool.false_ne_true]
        have hmark : KeyInv (markClosed t a) none := h.congr ⟨rfl, rfl, rfl, rfl⟩
        rw [detach_setKey hmark hnone hno]

end Obsd.PfState
