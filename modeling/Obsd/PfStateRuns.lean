import Obsd.PfStateInsert
import Obsd.Runs

/-!
# The state table, over any run

States are inserted, unlinked and freed in any order, and packets move the
states of their peers in between. Every state in the tree of ids has its
keys and no other state has any (`Linked`); with the invariant on the keys
this gives what a lookup relies on (`Consistent`).
-/

namespace Obsd.PfState

variable {t t' : Table} {s a b : Nat} {k : StateKey} {idx : Idx} {o x : Option Nat}

/-! ## Linked states -/

/-- The states in the tree of ids are those on the list that are not unlinked; they have their
keys, and no other state has one, `x` apart. -/
structure Linked (t : Table) (x : Option Nat) : Prop where
  tree : ∀ s, s ∈ t.treeId ↔ s ∈ t.stateList ∧ t.unlinked s = false
  attached : ∀ s ∈ t.treeId, ∀ idx, (t.key idx s).isSome
  detached : ∀ s, x ≠ some s → s ∉ t.treeId → ∀ idx, t.key idx s = none
  nodupId : t.treeId.Nodup
  nodupList : t.stateList.Nodup
  count : t.states = t.stateList.length

structure Inv (t : Table) : Prop where
  keys : KeyInv t none
  linked : Linked t none

theorem Linked.weaken (h : Linked t none) (x : Option Nat) : Linked t x :=
  { h with detached := fun s _ => h.detached s nofun }

theorem Linked.strengthen (h : Linked t (some s)) (hs : ∀ idx, t.key idx s = none) : Linked t none where
  tree := h.tree
  attached := h.attached
  detached a _ ha idx := by
    by_cases has : a = s
    · rw [has]
      exact hs idx
    · exact h.detached a (fun he => has (Option.some.inj he).symm) ha idx
  nodupId := h.nodupId
  nodupList := h.nodupList
  count := h.count

/-- The fields it is about, apart from the keys of `s`. -/
theorem Linked.rekey (h : Linked t (some s)) (hs : s ∉ t.treeId) (hids : t'.treeId = t.treeId)
    (hlist : t'.stateList = t.stateList) (hunl : t'.unlinked = t.unlinked)
    (hcount : t'.states = t.states) (hkey : ∀ idx a, a ≠ s → t'.key idx a = t.key idx a) :
    Linked t' (some s) where
  tree a := by
    rw [hids, hlist, hunl]
    exact h.tree a
  attached a ha idx := by
    rw [hids] at ha
    rw [hkey idx a fun he => hs (he ▸ ha)]
    exact h.attached a ha idx
  detached a hx ha idx := by
    rw [hids] at ha
    rw [hkey idx a fun he => hx (congrArg some he.symm)]
    exact h.detached a hx ha idx
  nodupId := hids ▸ h.nodupId
  nodupList := hlist ▸ h.nodupList
  count := by
    rw [hcount, hlist]
    exact h.count

/-- What unlinking a state leaves. -/
theorem Linked.drop (h : Linked t x) (hids : t'.treeId = t.treeId.erase a)
    (hlist : t'.stateList = t.stateList) (hunl : t'.unlinked = Function.update t.unlinked a true)
    (hcount : t'.states = t.states) (hgone : ∀ idx, t'.key idx a = none)
    (hkey : ∀ idx b, b ≠ a → x ≠ some b → t'.key idx b = t.key idx b)
    (hx : ∀ b ∈ t.treeId, x ≠ some b) : Linked t' x where
  tree b := by
    rw [hids, h.nodupId.mem_erase_iff, h.tree, hlist, hunl]
    by_cases hb : b = a
    · subst hb
      rw [Function.update_self]
      exact iff_of_false (fun he => he.1 rfl) (fun he => nomatch he.2)
    · rw [Function.update_of_ne hb]
      exact and_iff_right hb
  attached b hb idx := by
    rw [hids, h.nodupId.mem_erase_iff] at hb
    rw [hkey idx b hb.1 (hx b hb.2)]
    exact h.attached b hb.2 idx
  detached b hxb hb idx := by
    rw [hids, h.nodupId.mem_erase_iff] at hb
    by_cases hba : b = a
    · rw [hba]
      exact hgone idx
    · rw [hkey idx b hba hxb]
      exact h.detached b hxb (fun hin => hb ⟨hba, hin⟩) idx
  nodupId := by
    rw [hids]
    exact h.nodupId.erase a
  nodupList := hlist ▸ h.nodupList
  count := by
    rw [hcount, hlist]
    exact h.count

theorem Attached.linked (ha : Attached t t' s o) (h : Linked t (some s)) (hs : s ∉ t.treeId) :
    Linked t' (some s) := by
  have hframe := ha.frame
  cases o with
  | none =>
    refine h.rekey hs ?_ ?_ ?_ ?_ fun idx a has => ha.key idx a has nofun
    · rw [hframe]
      rfl
    · rw [hframe]
    · rw [hframe]
      rfl
    · rw [hframe]
  | some a =>
    refine h.drop ?_ ?_ ?_ ?_ (ha.gone a rfl) (fun idx b hb hx => ?_) ?_
    · rw [hframe]
      rfl
    · rw [hframe]
    · rw [hframe]
      rfl
    · rw [hframe]
    · exact ha.key idx b (fun he => hx (congrArg some he.symm)) fun he => hb (Option.some.inj he).symm
    · rintro b hb he
      exact hs (Option.some.inj he ▸ hb)

/-! ## Insertion -/

/-- The lists of states after room was made, or not. -/
theorem Attached.lists (ha : Attached t t' s o) :
    t'.stateList = t.stateList ∧ t'.treeId.Sublist t.treeId ∧ (o ≠ some s → t'.unlinked s = t.unlinked s) := by
  have hframe := ha.frame
  cases o with
  | none =>
    rw [hframe]
    exact ⟨rfl, List.Sublist.refl _, fun _ => rfl⟩
  | some a =>
    rw [hframe]
    exact ⟨rfl, List.erase_sublist, fun has =>
      Function.update_of_ne (fun he => has (congrArg some he.symm)) _ _⟩

/-- Whatever became of its keys, the new state is the only one that is out of line. -/
theorem insertKeys_linked (h : KeyInv t none) (hl : Linked t (some s)) (hs : s ∉ t.stateList)
    (hnone : ∀ idx, t.key idx s = none) {skw : StateKey} {sks : Option StateKey}
    (hne : sks ≠ some skw) (items : Items) :
    Linked (insertKeys t skw sks s items).1 (some s)
      ∧ (insertKeys t skw sks s items).1.stateList = t.stateList
      ∧ (insertKeys t skw sks s items).1.unlinked s = t.unlinked s := by
  have hout : ∀ {t : Table}, Linked t (some s) → s ∉ t.stateList → s ∉ t.treeId :=
    fun hl hs hin => hs ((hl.tree s).mp hin).1
  have hway : ∀ {t : Table} {k : StateKey}, KeyInv t none → ¬ HasKey t s k → inWay t s k ≠ some s :=
    fun hi hno he => hno (hi.inWay_iff.mp he).1
  cases hr : insertKeys t skw sks s items with
  | mk t' ok =>
    cases ok with
    | true =>
      have hroom := (insertKeys_true h hnone hne hr).room
      cases sks with
      | none =>
        obtain ⟨hlist, -, hunl⟩ := Attached.lists hroom
        exact ⟨Attached.linked hroom hl (hout hl hs), hlist, hunl (hway h (not_hasKey_of_none hnone))⟩
      | some sks =>
        obtain ⟨t₁, hinv₁, hno₁, hatt, hatt'⟩ := hroom
        obtain ⟨hlist, -, hunl⟩ := hatt.lists
        obtain ⟨hlist', -, hunl'⟩ := hatt'.lists
        have hl₁ := hatt.linked hl (hout hl hs)
        have hs₁ : s ∉ t₁.stateList := hlist ▸ hs
        refine ⟨hatt'.linked hl₁ (hout hl₁ hs₁), hlist'.trans hlist, ?_⟩
        exact (hunl' (hway hinv₁ hno₁)).trans (hunl (hway h (not_hasKey_of_none hnone)))
    | false =>
      obtain ⟨-, -, hroom⟩ := insertKeys_false h hnone hne hr
      obtain hroom | ⟨t₁, hatt, heq, hkey⟩ := hroom
      · rw [hroom]
        exact ⟨⟨hl.tree, hl.attached, hl.detached, hl.nodupId, hl.nodupList, hl.count⟩, rfl, rfl⟩
      · obtain ⟨hlist, -, hunl⟩ := hatt.lists
        have hl₁ := hatt.linked hl (hout hl hs)
        have hs₁ : s ∉ t₁.stateList := hlist ▸ hs
        have hids : t'.treeId = t₁.treeId := by rw [heq]
        have hlist' : t'.stateList = t₁.stateList := by rw [heq]
        have hunl' : t'.unlinked = t₁.unlinked := by rw [heq]
        have hcount' : t'.states = t₁.states := by rw [heq]
        refine ⟨hl₁.rekey (hout hl₁ hs₁) hids hlist' hunl' hcount' hkey, hlist'.trans hlist, ?_⟩
        exact (congrFun hunl' s).trans (hunl (hway h (not_hasKey_of_none hnone)))

theorem insertKeys_keys (h : KeyInv t none) (hnone : ∀ idx, t.key idx s = none) {skw : StateKey}
    {sks : Option StateKey} (hne : sks ≠ some skw) (items : Items) :
    KeyInv (insertKeys t skw sks s items).1 none
      ∧ ∀ idx, ((insertKeys t skw sks s items).1.key idx s).isSome = (insertKeys t skw sks s items).2 := by
  cases hr : insertKeys t skw sks s items with
  | mk t' ok =>
    cases ok with
    | true =>
      obtain ⟨hinv, hwire, hstack, -⟩ := insertKeys_true h hnone hne hr
      refine ⟨hinv, fun idx => ?_⟩
      cases idx with
      | wire => exact congrArg Option.isSome hwire
      | stack => exact congrArg Option.isSome hstack
    | false =>
      obtain ⟨hinv, hkeys, -⟩ := insertKeys_false h hnone hne hr
      exact ⟨hinv, fun idx => congrArg Option.isSome (hkeys idx)⟩

theorem newState_inv (h : Inv t) (hs : s ∉ t.stateList) (n : NewState) (kif : Kif) :
    KeyInv { newState t s n with kif := Function.update t.kif s kif } none
      ∧ Linked { newState t s n with kif := Function.update t.kif s kif } (some s)
      ∧ ∀ idx, (newState t s n).key idx s = none := by
  have hout : s ∉ t.treeId := fun hin => hs ((h.linked.tree s).mp hin).1
  have hnone : ∀ idx, t.key idx s = none := h.linked.detached s nofun hout
  have hkey : (newState t s n).key = t.key := by
    funext idx
    rw [newState]
    dsimp only
    rw [← hnone idx, Function.update_eq_self]
  refine ⟨h.keys.rebind (fun k => not_hasKey_of_none hnone) kif n.direction rfl hkey rfl rfl, ?_,
    fun idx => (congrFun (congrFun hkey idx) s).trans (hnone idx)⟩
  have hl := h.linked.weaken (some s)
  refine ⟨fun a => ?_, fun a ha idx => ?_, fun a hx ha idx => ?_, hl.nodupId, hl.nodupList, hl.count⟩
  · change a ∈ t.treeId ↔ a ∈ t.stateList ∧ Function.update t.unlinked s false a = false
    by_cases ha : a = s
    · rw [ha]
      exact iff_of_false hout fun he => hs he.1
    · rw [Function.update_of_ne ha]
      exact hl.tree a
  · rw [hkey]
    exact hl.attached a ha idx
  · rw [hkey]
    exact hl.detached a hx ha idx

theorem assignId_frame (t : Table) (s : Nat) : assignId t s = { t with
    id := (assignId t s).id, stateid := (assignId t s).stateid } := by
  rw [assignId]
  split
  · rfl
  · rfl

/-- `pf_state_insert` keeps the table in order, whether it succeeds or not. -/
theorem stateInsert_inv (h : Inv t) (hs : s ∉ t.stateList) (n : NewState) (kif : Kif)
    {skw : StateKey} {sks : Option StateKey} (hne : sks ≠ some skw) (items : Items) :
    Inv (pfStateInsert (newState t s n) kif skw sks s items).1 := by
  obtain ⟨hk₀, hl₀, hnone₀⟩ := newState_inv h hs n kif
  unfold pfStateInsert
  obtain ⟨t₀, ht₀⟩ : ∃ t₀, t₀ = { newState t s n with kif := Function.update t.kif s kif } := ⟨_, rfl⟩
  have hdef : { newState t s n with kif := Function.update (newState t s n).kif s kif } = t₀ := ht₀.symm
  rw [hdef]
  rw [← ht₀] at hk₀ hl₀
  have hnone : ∀ idx, t₀.key idx s = none := fun idx => by
    rw [ht₀]
    exact hnone₀ idx
  have hs₀ : s ∉ t₀.stateList := by
    rw [ht₀]
    exact hs
  have hunl₀ : t₀.unlinked s = false := by
    rw [ht₀]
    exact Function.update_self _ _ _
  obtain ⟨hl, hlist, hunl⟩ := insertKeys_linked hk₀ hl₀ hs₀ hnone hne items
  obtain ⟨hk, hkeys⟩ := insertKeys_keys hk₀ hnone hne items
  cases hr : insertKeys t₀ skw sks s items with
  | mk t₁ ok =>
    rw [hr] at hl hlist hunl hk hkeys
    cases ok with
    | false => exact ⟨hk, hl.strengthen fun idx => Option.isSome_eq_false_iff.mp (hkeys idx) |>
        Option.isNone_iff_eq_none.mp⟩
    | true =>
      dsimp only
      have hframe := assignId_frame t₁ s
      generalize assignId t₁ s = t₂ at hframe ⊢
      have hk₂ : KeyInv t₂ none := by
        refine hk.congr ⟨?_, ?_, ?_, ?_⟩ <;> rw [hframe]
      have hl₂ : Linked t₂ (some s) := by
        rw [hframe]
        exact ⟨hl.tree, hl.attached, hl.detached, hl.nodupId, hl.nodupList, hl.count⟩
      have hs₂ : s ∉ t₂.stateList := by
        rw [hframe, hlist]
        exact hs₀
      have hout : s ∉ t₂.treeId := fun hin => hs₂ ((hl₂.tree s).mp hin).1
      split
      · obtain ⟨hkd, hre, hgone⟩ := detachState_spec hk₂ s
        refine ⟨hkd, (hl₂.rekey hout ?_ ?_ ?_ ?_ hre.key).strengthen hgone⟩
        · rw [hre.eq]
        · rw [hre.eq]
        · rw [hre.eq]
        · rw [hre.eq]
      · have hunl₂ : t₂.unlinked s = false := by
          rw [hframe, hunl]
          exact hunl₀
        have hkeys₂ : ∀ idx, (t₂.key idx s).isSome = true := fun idx => by
          rw [hframe]
          exact hkeys idx
        refine ⟨hk₂.congr ⟨rfl, rfl, rfl, rfl⟩, ⟨fun a => ?_, fun a ha idx => ?_, fun a _ ha idx => ?_,
          ?_, ?_, ?_⟩⟩
        · rw [List.mem_append, List.mem_append, List.mem_singleton, hl₂.tree]
          by_cases ha : a = s
          · subst ha
            exact iff_of_true (.inr rfl) ⟨.inr rfl, hunl₂⟩
          · rw [or_iff_left ha, or_iff_left ha]
        · by_cases has : a = s
          · rw [has]
            exact hkeys₂ idx
          · exact hl₂.attached a ((List.mem_append.mp ha).resolve_right fun he =>
              has (List.mem_singleton.mp he)) idx
        · refine hl₂.detached a (fun he => ha ?_) (fun hin => ha (List.mem_append_left _ hin)) idx
          rw [← Option.some.inj he]
          exact List.mem_append_right _ List.mem_cons_self
        · exact hl₂.nodupId.append (List.nodup_singleton s) fun a ha he =>
            hout (List.mem_singleton.mp he ▸ ha)
        · exact hl₂.nodupList.append (List.nodup_singleton s) fun a ha he =>
            hs₂ (List.mem_singleton.mp he ▸ ha)
        · change t₂.states + 1 = ((t₂.stateList ++ [s]).length : Int)
          rw [List.length_append, List.length_singleton, hl₂.count]
          omega

/-! ## Unlinking and freeing -/

theorem unlinkState_inv (h : Inv t) (s : Nat) : Inv (pfUnlinkState t s) := by
  obtain ⟨hk, hu⟩ := unlinkState_spec h.keys s
  have heq := hu.eq
  rw [srcTreeRemoveState_frame] at heq
  refine ⟨hk, h.linked.drop ?_ ?_ ?_ ?_ hu.none (fun idx b hb _ => hu.key idx b hb) nofun⟩
  · rw [heq]
  · rw [heq]
  · rw [heq]
  · rw [heq]

theorem freeState_inv (h : Inv t) (hs : s ∈ t.stateList) {inUse : Bool}
    (hr : pfFreeState t s inUse = some t') : Inv t' := by
  rw [pfFreeState] at hr
  split at hr
  · obtain rfl := Option.some.inj hr
    exact h
  · split at hr
    · rename_i hunl
      obtain rfl := Option.some.inj hr
      have hl := h.linked
      refine ⟨h.keys.congr ⟨rfl, rfl, rfl, rfl⟩, ⟨fun a => ?_, hl.attached, hl.detached, hl.nodupId,
        hl.nodupList.erase s, ?_⟩⟩
      · change a ∈ t.treeId ↔ a ∈ t.stateList.erase s ∧ t.unlinked a = false
        rw [hl.nodupList.mem_erase_iff, hl.tree]
        refine ⟨fun he => ⟨⟨?_, he.1⟩, he.2⟩, fun he => ⟨he.1.2, he.2⟩⟩
        rintro rfl
        rw [hunl] at he
        exact nomatch he.2
      · change t.states - 1 = ((t.stateList.erase s).length : Int)
        have hpos := List.length_pos_of_mem hs
        rw [List.length_erase_of_mem hs, hl.count]
        omega
    · cases hr

/-! ## Runs -/

inductive Act where
  | insert (s : Nat) (n : NewState) (kif : Kif) (skw : StateKey) (sks : Option StateKey)
  | unlink (s : Nat)
  | free (s : Nat) (inUse : Bool)
  | track (s : Nat) (peers : BitVec 8 × BitVec 8)
deriving DecidableEq, Repr

def step (t : Table) : Act → Option Table
  | .insert s n kif skw sks => some (pfStateInsert (newState t s n) kif skw sks s {}).1
  | .unlink s => some (pfUnlinkState t s)
  | .free s inUse => pfFreeState t s inUse
  | .track s peers => some { t with peers := Function.update t.peers s peers }

/-- A new state is in memory that no other has, and two keys are two only if they differ, as
`pf_state_key_setup` and `pfsync_state_import` see to; a state is unlinked once and freed after that. -/
def allowed (t : Table) : Act → Prop
  | .insert s _ _ skw sks => s ∉ t.stateList ∧ sks ≠ some skw
  | .unlink s => s ∈ t.treeId
  | .free s _ => s ∈ t.stateList ∧ t.unlinked s = true
  | .track _ _ => True

theorem step_inv {act : Act} (hok : allowed t act) (hstep : step t act = some t') (h : Inv t) : Inv t' := by
  cases act with
  | insert s n kif skw sks =>
    obtain rfl := Option.some.inj hstep
    exact stateInsert_inv h hok.1 n kif hok.2 {}
  | unlink s =>
    obtain rfl := Option.some.inj hstep
    exact unlinkState_inv h s
  | free s inUse => exact freeState_inv h hok.1 hstep
  | track s peers =>
    obtain rfl := Option.some.inj hstep
    have hl := h.linked
    exact ⟨h.keys.congr ⟨rfl, rfl, rfl, rfl⟩,
      ⟨hl.tree, hl.attached, hl.detached, hl.nodupId, hl.nodupList, hl.count⟩⟩

/-- A table as `pf_initialize` leaves it. -/
structure Empty (t : Table) : Prop where
  statetbl : ∀ k, t.statetbl k = none
  key : ∀ idx s, t.key idx s = none
  treeId : t.treeId = []
  stateList : t.stateList = []
  states : t.states = 0

theorem Empty.inv (h : Empty t) : Inv t := by
  have hitems : ∀ k, itemsOf t k = [] := fun k => by
    rw [itemsOf, h.statetbl]
    rfl
  refine ⟨⟨fun k => ?_, fun k => ?_, fun k => ?_, fun k a ha => ?_, fun k s => ?_⟩,
    ⟨fun s => ?_, fun s hs => ?_, fun s _ _ idx => h.key idx s, ?_, ?_, ?_⟩⟩
  · rw [h.statetbl]
    simp
  · rw [hitems]
    exact List.nodup_nil
  · rw [hitems]
    exact List.Pairwise.nil
  · rw [hitems] at ha
    cases ha
  · rw [hitems]
    exact iff_of_false List.not_mem_nil (not_hasKey_of_none fun idx => h.key idx s)
  · rw [h.treeId, h.stateList]
    exact iff_of_false List.not_mem_nil fun he => List.not_mem_nil he.1
  · rw [h.treeId] at hs
    cases hs
  · rw [h.treeId]
    exact List.nodup_nil
  · rw [h.stateList]
    exact List.nodup_nil
  · rw [h.states, h.stateList]
    rfl

/-- What the lookups rely on. -/
structure Consistent (t : Table) : Prop where
  nonempty : ∀ k, t.statetbl k ≠ some []
  boundFirst : ∀ k, (itemsOf t k).Pairwise fun a b => t.kif a = .all → t.kif b = .all
  apart : ∀ k, (itemsOf t k).Pairwise fun a b => ¬ (t.kif a = t.kif b ∧ t.direction a = t.direction b)
  once : ∀ s ∈ t.treeId, ∀ idx, ∃ k, t.key idx s = some k ∧ (itemsOf t k).count s = 1
  freed : ∀ k, (t.statetbl k).isSome ↔ ∃ s ∈ t.treeId, HasKey t s k
  states : t.states = t.stateList.length

theorem Inv.consistent (h : Inv t) : Consistent t where
  nonempty := h.keys.nonempty
  boundFirst := h.keys.sorted
  apart k := by
    refine (h.keys.nodup k).imp_of_mem fun {a b} ha hb hne hsame => ?_
    have hif : sameIf t a b = true := by
      rw [sameIf, Bool.and_eq_true, decide_eq_true_eq, decide_eq_true_eq]
      exact hsame
    obtain he | he := h.keys.apart k a ha b hb hne hif
    · cases he
    · cases he
  once s hs idx := by
    obtain ⟨k, hk⟩ := Option.isSome_iff_exists.mp (h.linked.attached s hs idx)
    refine ⟨k, hk, List.count_eq_one_of_mem (h.keys.nodup k) ?_⟩
    exact (h.keys.items k s).mpr ((hasKey_iff idx).mpr (.inl hk))
  freed k := by
    constructor
    · intro hsome
      obtain ⟨l, hl⟩ := Option.isSome_iff_exists.mp hsome
      have hitems : itemsOf t k = l := by
        rw [itemsOf, hl]
        rfl
      have hne : l ≠ [] := fun he => h.keys.nonempty k (by rw [hl, he])
      obtain ⟨s, hs⟩ := List.exists_mem_of_ne_nil l hne
      have hkey := (h.keys.items k s).mp (hitems ▸ hs)
      refine ⟨s, ?_, hkey⟩
      by_contra hout
      exact not_hasKey_of_none (h.linked.detached s (by simp) hout) hkey
    · rintro ⟨s, -, hkey⟩
      have hs := (h.keys.items k s).mpr hkey
      cases hl : t.statetbl k with
      | none =>
        rw [itemsOf, hl] at hs
        cases hs
      | some l => rfl
  states := h.linked.count

/-- In every run the table is what lookups take it for. -/
theorem state_table_consistent (t₀ t : Table) (h0 : Empty t₀) (hr : Runs step allowed t₀ t) :
    Consistent t := by
  have hend := Runs.invariant (fun _ _ _ hok hstep hi => step_inv hok hstep hi) hr h0.inv
  exact hend.consistent

/-- A table before the first state. -/
def freshTable : Table where
  statetbl _ := none
  treeId := []
  stateList := []
  states := 0
  stateid := 1#64
  hostid := 7#32
  kif _ := .all
  direction _ := .inn
  key _ _ := none
  peers _ := (0#8, 0#8)
  id _ := (0#64, 0#32)
  unlinked _ := false
  tcpEst _ := false
  rule _ := 0
  anchor _ := none
  matchRules _ := []
  srcNodes _ := []
  node _ := { rule := none, states := 0, conn := 0, expire := 0 }
  srcTree := []
  statesCur _ := 0
  snTimeout _ := 0
  timeSecond := 0

theorem freshTable_empty : Empty freshTable where
  statetbl _ := rfl
  key _ _ := rfl
  treeId := rfl
  stateList := rfl
  states := rfl

/-- A TCP connection between two hosts, from one port to another. -/
def tcpKey (sport dport : BitVec 16) : StateKey where
  proto := ipprotoTcp
  af := .inet
  addr0 := [0x0a000001#32]
  addr1 := [0x0a000002#32]
  port0 := sport
  port1 := dport
  rdomain := 0#16

/-- An incoming connection that has just begun. -/
def synState : NewState where
  direction := .inn
  peers := (2#8, 0#8)
  id := (0#64, 0#32)
  tcpEst := false
  rule := 0
  anchor := none
  matchRules := []

/-- A translated connection closes, and the next one with the same keys takes its place; the
old one is freed later. -/
def reuseActs : List Act :=
  [.insert 1 synState .all (tcpKey 1000#16 80#16) (some (tcpKey 1000#16 8080#16)),
   .insert 2 synState (.iface 0) (tcpKey 1000#16 80#16) none,
   .track 1 (9#8, 9#8),
   .insert 3 synState .all (tcpKey 1000#16 80#16) (some (tcpKey 1000#16 8080#16)),
   .free 1 false]

def allowedB (t : Table) : Act → Bool
  | .insert s _ _ skw sks => decide (s ∉ t.stateList) && decide (sks ≠ some skw)
  | .unlink s => decide (s ∈ t.treeId)
  | .free s _ => decide (s ∈ t.stateList) && t.unlinked s
  | .track _ _ => true

theorem allowed_of_allowedB (t : Table) (act : Act) (h : allowedB t act = true) : allowed t act := by
  cases act with
  | insert s n kif skw sks =>
    rw [allowedB, Bool.and_eq_true, decide_eq_true_eq, decide_eq_true_eq] at h
    exact h
  | unlink s =>
    rw [allowedB, decide_eq_true_eq] at h
    exact h
  | free s inUse =>
    rw [allowedB, Bool.and_eq_true, decide_eq_true_eq] at h
    exact h
  | track s peers => trivial

theorem state_table_consistent_reuse : ∃ t, Runs step allowed freshTable t
    ∧ t.stateList = [2, 3] ∧ itemsOf t (tcpKey 1000#16 80#16) = [2, 3] ∧ Consistent t := by
  have hexec : ((Runs.exec step allowedB reuseActs freshTable).map fun t =>
      (t.stateList, itemsOf t (tcpKey 1000#16 80#16))) = some ([2, 3], [2, 3]) := by decide
  obtain ⟨t, ht, hobs⟩ := Option.map_eq_some_iff.mp hexec
  obtain ⟨hlist, hitems⟩ := Prod.mk.inj hobs
  have hruns := Runs.of_exec allowed_of_allowedB reuseActs ht
  exact ⟨t, hruns, hlist, hitems, state_table_consistent freshTable t freshTable_empty hruns⟩

end Obsd.PfState
