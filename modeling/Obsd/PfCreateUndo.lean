import Obsd.PfCreate
import Obsd.PfStateRuns

/-!
# What is left of a state that could not be made

`pf_create_state` registers a state step by step and can fail at each of
them. What it has done to the rules' counts it undoes at every exit. Two
things it does not undo. A closing state that made room for the new one
stays unlinked if the new one fails after that, so its source nodes have
lost a state (`MadeRoom`). And when there is no memory for an item of a
source node, the state is freed with everything still pointing to it.
-/

namespace Obsd.PfState

variable {t t' : Table} {s a b n : Nat} {k : StateKey} {idx : Idx} {o : Option Nat} {l : List Nat}

/-! ## Source nodes -/

theorem srcTreeRemoveState_states (t : Table) (a n : Nat) :
    ((pfSrcTreeRemoveState t a).node n).states = (t.node n).states - (t.srcNodes a).count n := by
  have hfold : ∀ (l : List Nat) (t : Table), ((l.foldl (fun t n => dropSrcNode t a n) t).node n).states
      = (t.node n).states - l.count n := by
    intro l
    induction l with
    | nil =>
      intro t
      exact (Int.sub_zero _).symm
    | cons m l ih =>
      intro t
      rw [List.foldl_cons, ih]
      by_cases hm : m = n
      · subst hm
        have hdrop : ((dropSrcNode t a m).node m).states = (t.node m).states - 1 := by
          rw [dropSrcNode]
          dsimp only
          rw [Function.update_self]
        rw [hdrop, List.count_cons_self]
        omega
      · have hdrop : (dropSrcNode t a m).node n = t.node n := by
          exact Function.update_of_ne (Ne.symm hm) _ _
        rw [hdrop, List.count_cons_of_ne hm]
  exact hfold (t.srcNodes a) t

theorem srcTreeRemoveState_srcNodes (t : Table) (a : Nat) :
    (pfSrcTreeRemoveState t a).srcNodes = Function.update t.srcNodes a [] := by
  have hfold : ∀ (l : List Nat) (t : Table),
      (l.foldl (fun t n => dropSrcNode t a n) t).srcNodes = t.srcNodes := by
    intro l
    induction l with
    | nil =>
      intro t
      rfl
    | cons m l ih =>
      intro t
      rw [List.foldl_cons, ih]
      rfl
  rw [pfSrcTreeRemoveState]
  rw [hfold]

/-- How many states a source node has through the states `l`. -/
def through (t : Table) (l : List Nat) (n : Nat) : Nat := (l.map fun a => (t.srcNodes a).count n).sum

theorem through_eq_zero : (∀ n, through t l n = 0) ↔ ∀ a ∈ l, t.srcNodes a = [] := by
  constructor
  · intro h a ha
    by_contra hne
    obtain ⟨n, hn⟩ := List.exists_mem_of_ne_nil _ hne
    have hzero := List.sum_eq_zero_iff_forall_eq_nat.mp (h n) _ (List.mem_map_of_mem ha)
    exact absurd (List.count_pos_iff.mpr hn) (hzero ▸ Nat.lt_irrefl 0)
  · intro h n
    refine List.sum_eq_zero_iff_forall_eq_nat.mpr fun x hx => ?_
    obtain ⟨a, ha, rfl⟩ := List.mem_map.mp hx
    rw [h a ha]
    rfl

/-- `t'` is `t` after the states `l` were unlinked, whatever became of the keys. -/
structure RoomMade (t t' : Table) (l : List Nat) : Prop where
  frame : t' = { t with
    statetbl := t'.statetbl
    key := t'.key
    peers := t'.peers
    treeId := t'.treeId
    unlinked := t'.unlinked
    node := t'.node
    srcNodes := t'.srcNodes }
  states : ∀ n, (t'.node n).states = (t.node n).states - through t l n
  srcNodes : ∀ a, a ∉ l → t'.srcNodes a = t.srcNodes a
  tree : ∀ a, a ∈ t'.treeId ↔ a ∈ t.treeId ∧ a ∉ l
  nodup : t'.treeId.Nodup

theorem Attached.roomMade (h : Attached t t' s o) (hnd : t.treeId.Nodup) : RoomMade t t' o.toList := by
  have hframe := h.frame
  have hnode : t'.node = (makeRoom t o).node := by rw [hframe]
  have hsrc : t'.srcNodes = (makeRoom t o).srcNodes := by rw [hframe]
  have htree : t'.treeId = (makeRoom t o).treeId := by rw [hframe]
  have hunl : t'.unlinked = (makeRoom t o).unlinked := by rw [hframe]
  refine ⟨?_, fun n => ?_, fun a ha => ?_, fun a => ?_, ?_⟩
  · rw [hnode, hsrc, htree, hunl]
    exact hframe
  · rw [hnode]
    cases o with
    | none => exact (Int.sub_zero _).symm
    | some a => exact srcTreeRemoveState_states t a n
  · rw [hsrc]
    cases o with
    | none => rfl
    | some b =>
      refine (congrFun (srcTreeRemoveState_srcNodes t b) a).trans (Function.update_of_ne ?_ _ _)
      exact fun he => ha (he ▸ List.mem_cons_self)
  · rw [htree]
    cases o with
    | none => exact ⟨fun hin => ⟨hin, nofun⟩, fun he => he.1⟩
    | some b =>
      refine hnd.mem_erase_iff.trans ⟨fun he => ⟨he.2, fun hb => he.1 (List.mem_singleton.mp hb)⟩,
        fun he => ⟨fun hb => he.2 (hb ▸ List.mem_cons_self), he.1⟩⟩
  · rw [htree]
    cases o with
    | none => exact hnd
    | some b => exact hnd.erase b

theorem RoomMade.trans {t₁ t₂ t₃ : Table} {l l' : List Nat} (h : RoomMade t₁ t₂ l)
    (h' : RoomMade t₂ t₃ l') (hdisj : ∀ a ∈ l', a ∉ l) : RoomMade t₁ t₃ (l ++ l') where
  frame := by
    have hf := h.frame
    have hf' := h'.frame
    rw [hf] at hf'
    exact hf'
  states n := by
    have hthrough : through t₂ l' n = through t₁ l' n := by
      rw [through, through]
      congr 1
      refine List.map_congr_left fun a ha => ?_
      rw [h.srcNodes a (hdisj a ha)]
    have hsum : through t₁ (l ++ l') n = through t₁ l n + through t₁ l' n := by
      rw [through, List.map_append, List.sum_append_nat]
      rfl
    rw [h'.states, h.states, hthrough, hsum]
    omega
  srcNodes a ha := by
    rw [List.mem_append, not_or] at ha
    rw [h'.srcNodes a ha.2, h.srcNodes a ha.1]
  tree a := by
    rw [h'.tree, h.tree, List.mem_append, not_or, and_assoc]
  nodup := h'.nodup

/-- Keys and peers do not matter. -/
theorem RoomMade.rekey {t₁ t₂ : Table} (h : RoomMade t t₁ l)
    (heq : t₂ = { t₁ with statetbl := t₂.statetbl, key := t₂.key, peers := t₂.peers }) : RoomMade t t₂ l := by
  have hf := h.frame
  refine ⟨?_, fun n => ?_, fun a ha => ?_, fun a => ?_, ?_⟩
  · rw [hf] at heq
    have hids : t₂.treeId = t₁.treeId := by rw [heq]
    have hunl : t₂.unlinked = t₁.unlinked := by rw [heq]
    have hnode : t₂.node = t₁.node := by rw [heq]
    have hsrc : t₂.srcNodes = t₁.srcNodes := by rw [heq]
    rw [hids, hunl, hnode, hsrc]
    exact heq
  · rw [heq]
    exact h.states n
  · rw [heq]
    exact h.srcNodes a ha
  · rw [heq]
    exact h.tree a
  · rw [heq]
    exact h.nodup

theorem RoomMade.nil (hnd : t.treeId.Nodup) : RoomMade t t [] :=
  ⟨rfl, fun _ => (Int.sub_zero _).symm, fun _ _ => rfl, fun _ => ⟨fun ha => ⟨ha, nofun⟩, fun ha => ha.1⟩,
    hnd⟩

/-! ## The second key, after room was made at the first -/

theorem Attached.inWay_iff {t₁ : Table} (hatt : Attached t t₁ s o) (h : KeyInv t none)
    (h₁ : KeyInv t₁ none) (hno : ¬ HasKey t s k) (hno₁ : ¬ HasKey t₁ s k) :
    inWay t₁ s k = some a ↔ inWay t s k = some a ∧ o ≠ some a := by
  have hsame : sameIf t₁ a s = sameIf t a s := by
    rw [sameIf, sameIf, hatt.frame]
  rw [h₁.inWay_iff, h.inWay_iff, hsame]
  by_cases has : a = s
  · subst has
    exact iff_of_false (fun he => hno₁ he.1) fun he => hno he.1.1
  · by_cases ho : o = some a
    · refine iff_of_false (fun he => ?_) fun he => he.2 ho
      exact not_hasKey_of_none (hatt.gone a ho) he.1
    · have hkey : HasKey t₁ a k ↔ HasKey t a k := by
        rw [HasKey, HasKey, hatt.key _ a has ho, hatt.key _ a has ho]
      rw [hkey]
      exact ⟨fun he => ⟨he, ho⟩, fun he => he.1⟩

/-- The new state gets its key at the wire; `way` says what is in the way at a key. -/
def WireIn (t : Table) (way : StateKey → Option Nat) (skw : StateKey) (items : Items) : Prop :=
  items.wire = true ∧ ∀ a, way skw = some a → yields t skw a = true

/-- It gets its other key, if it has one; what is in the way of both keys is gone by then. -/
def StackIn (t : Table) (way : StateKey → Option Nat) (skw : StateKey) (sks : Option StateKey)
    (items : Items) : Prop :=
  ∀ k, sks = some k → items.stack = true ∧ ∀ a, way k = some a → way skw = some a ∨ yields t k a = true

/-- A state that is unlinked on the way. -/
def MadeRoom (t : Table) (way : StateKey → Option Nat) (skw : StateKey) (sks : Option StateKey)
    (items : Items) (a : Nat) : Prop :=
  WireIn t way skw items ∧
    (way skw = some a ∨ StackIn t way skw sks items ∧ ∃ k, sks = some k ∧ way k = some a)

theorem insertKeys_outcome (h : KeyInv t none) (hnd : t.treeId.Nodup) (hnone : ∀ idx, t.key idx s = none)
    {skw : StateKey} {sks : Option StateKey} (hne : sks ≠ some skw) (items : Items) :
    ((insertKeys t skw sks s items).2 = true ↔ WireIn t (inWay t s) skw items ∧ StackIn t (inWay t s) skw sks items)
      ∧ ∃ l, RoomMade t (insertKeys t skw sks s items).1 l
        ∧ ∀ a, a ∈ l ↔ MadeRoom t (inWay t s) skw sks items a := by
  have hno : ∀ k, ¬ HasKey t s k := fun k => not_hasKey_of_none hnone
  have hfirst : (pfStateKeyAttach t skw s .wire items.wire).2 = true ↔ WireIn t (inWay t s) skw items :=
    keyAttach_ok_iff h (hnone _) (hno skw) items.wire
  unfold insertKeys
  cases hq : pfStateKeyAttach t skw s .wire items.wire with
  | mk t₁ ok =>
    rw [hq] at hfirst
    cases ok with
    | false =>
      have hout : ¬ WireIn t (inWay t s) skw items := fun hw => nomatch hfirst.mpr hw
      have ht₁ := keyAttach_false h (hnone _) (hno skw) hq
      have hroom : RoomMade t t₁ [] := (RoomMade.nil hnd).rekey (by rw [ht₁])
      have hres : ∀ a, a ∈ ([] : List Nat) ↔ MadeRoom t (inWay t s) skw sks items a :=
        fun a => iff_of_false nofun fun he => hout he.1
      cases sks with
      | none => exact ⟨iff_of_false nofun fun he => hout he.1, [], hroom, hres⟩
      | some sks => exact ⟨iff_of_false nofun fun he => hout he.1, [], hroom, hres⟩
    | true =>
      have hin := hfirst.mp rfl
      obtain ⟨hinv, hatt, hwire, hstack⟩ := keyAttach_true h (hnone _) (hno skw) hq
      have hstack : t₁.key .stack s = none := hstack.trans (hnone .stack)
      have hroom := hatt.roomMade hnd
      cases sks with
      | none =>
        refine ⟨iff_of_true rfl ⟨hin, nofun⟩, (inWay t s skw).toList, hroom.rekey rfl, fun a => ?_⟩
        rw [Option.mem_toList]
        exact ⟨fun ha => ⟨hin, .inl ha⟩, fun ha => ha.2.resolve_right fun he => nomatch he.2⟩
      | some sks =>
        dsimp only
        have hno₁ : ¬ HasKey t₁ s sks := by
          rintro (he | he)
          · rw [hwire] at he
            exact hne he.symm
          · rw [hstack] at he
            cases he
        have hway : ∀ a, inWay t₁ s sks = some a ↔ inWay t s sks = some a ∧ inWay t s skw ≠ some a :=
          fun a => hatt.inWay_iff h hinv (hno sks) hno₁
        have hyields : ∀ a, inWay t s skw ≠ some a → yields t₁ sks a = yields t sks a := fun a ha => by
          rw [yields, yields, closing, closing, hatt.peers a ha]
        have hsecond : (pfStateKeyAttach t₁ sks s .stack items.stack).2 = true
            ↔ StackIn t (inWay t s) skw (some sks) items := by
          rw [keyAttach_ok_iff hinv hstack hno₁]
          constructor
          · rintro ⟨hitem, hy⟩ k hk
            obtain rfl := Option.some.inj hk
            refine ⟨hitem, fun a ha => ?_⟩
            by_cases hw : inWay t s skw = some a
            · exact .inl hw
            · exact .inr (hyields a hw ▸ hy a ((hway a).mpr ⟨ha, hw⟩))
          · intro hs
            obtain ⟨hitem, hy⟩ := hs sks rfl
            refine ⟨hitem, fun a ha => ?_⟩
            obtain ⟨ha, hw⟩ := (hway a).mp ha
            rw [hyields a hw]
            exact (hy a ha).resolve_left hw
        cases hq₂ : pfStateKeyAttach t₁ sks s .stack items.stack with
        | mk t₂ ok₂ =>
          rw [hq₂] at hsecond
          cases ok₂ with
          | false =>
            have hout : ¬ StackIn t (inWay t s) skw (some sks) items := fun hs => nomatch hsecond.mpr hs
            have ht₂ := keyAttach_false hinv hstack hno₁ hq₂
            obtain ⟨hre, -, -⟩ := keyDetach_rekeyed t₂ s .wire
            have hroom₂ : RoomMade t t₂ (inWay t s skw).toList := hroom.rekey (by rw [ht₂])
            refine ⟨iff_of_false nofun fun he => hout he.2, (inWay t s skw).toList,
              hroom₂.rekey hre.attached.eq, fun a => ?_⟩
            rw [Option.mem_toList]
            exact ⟨fun ha => ⟨hin, .inl ha⟩, fun ha => ha.2.resolve_right fun he => hout he.1⟩
          | true =>
            have hin₂ := hsecond.mp rfl
            obtain ⟨-, hatt₂, -, -⟩ := keyAttach_true hinv hstack hno₁ hq₂
            refine ⟨iff_of_true rfl ⟨hin, hin₂⟩, (inWay t s skw).toList ++ (inWay t₁ s sks).toList,
              hroom.trans (hatt₂.roomMade hroom.nodup) fun a ha => ?_, fun a => ?_⟩
            · rw [Option.mem_toList] at ha ⊢
              exact ((hway a).mp ha).2
            · rw [List.mem_append, Option.mem_toList, Option.mem_toList]
              rw [hway]
              constructor
              · rintro (ha | ⟨ha, -⟩)
                · exact ⟨hin, .inl ha⟩
                · exact ⟨hin, .inr ⟨hin₂, sks, rfl, ha⟩⟩
              · rintro ⟨-, ha | ⟨-, k, hk, ha⟩⟩
                · exact .inl ha
                · obtain rfl := Option.some.inj hk
                  by_cases hw : inWay t s skw = some a
                  · exact .inl hw
                  · exact .inr ⟨ha, hw⟩

/-! ## The insertion -/

/-- No other state has the id that is given out next, those that made room apart. -/
def IdIn (t : Table) (way : StateKey → Option Nat) (skw : StateKey) (sks : Option StateKey) : Prop :=
  ∀ a ∈ t.treeId, t.id a = (t.stateid, t.hostid) →
    way skw = some a ∨ ∃ k, sks = some k ∧ way k = some a

theorem stateInsert_outcome {t₀ : Table} {kif : Kif}
    (ht : t = { t₀ with kif := Function.update t₀.kif s kif }) (h : KeyInv t none)
    (hnd : t.treeId.Nodup) (hs : s ∉ t.treeId) (hnone : ∀ idx, t.key idx s = none)
    (hid : t.id s = (0#64, 0#32)) {skw : StateKey} {sks : Option StateKey} (hne : sks ≠ some skw)
    (items : Items) {ok : Bool} (hr : pfStateInsert t₀ kif skw sks s items = (t', ok)) :
    (ok = true ↔ (WireIn t (inWay t s) skw items ∧ StackIn t (inWay t s) skw sks items) ∧ IdIn t (inWay t s) skw sks)
      ∧ t' = { t with
          statetbl := t'.statetbl, treeId := t'.treeId, stateList := t'.stateList, states := t'.states
          stateid := t'.stateid, key := t'.key, peers := t'.peers, id := t'.id, unlinked := t'.unlinked
          srcNodes := t'.srcNodes, node := t'.node }
      ∧ t'.states = t.states + (if ok then 1 else 0)
      ∧ t'.srcNodes s = t.srcNodes s
      ∧ (if ok then s ∈ t'.treeId else t'.stateList = t.stateList)
      ∧ ∃ l, (∀ n, (t'.node n).states = (t.node n).states - through t l n)
        ∧ ∀ a, a ∈ l ↔ MadeRoom t (inWay t s) skw sks items a := by
  obtain ⟨hok, l, hroom, hl⟩ := insertKeys_outcome h hnd hnone hne items
  have hsl : s ∉ l := by
    intro hin
    obtain ⟨-, hway | ⟨-, k, -, hway⟩⟩ := (hl s).mp hin
    · exact not_hasKey_of_none hnone (h.inWay_iff.mp hway).1
    · exact not_hasKey_of_none hnone (h.inWay_iff.mp hway).1
  unfold pfStateInsert at hr
  rw [← ht] at hr
  cases hq : insertKeys t skw sks s items with
  | mk t₁ ok₁ =>
    rw [hq] at hr hok hroom
    dsimp only at hok hroom hr
    have hf := hroom.frame
    cases ok₁ with
    | false =>
      obtain ⟨rfl, rfl⟩ := Prod.mk.inj hr
      have hout : ¬ (WireIn t (inWay t s) skw items ∧ StackIn t (inWay t s) skw sks items) := fun hin => nomatch hok.mpr hin
      refine ⟨iff_of_false nofun fun hin => hout hin.1, ?_, ?_, hroom.srcNodes s hsl, ?_, l,
        hroom.states, hl⟩
      · rw [hf]
      · rw [hf]
        exact (Int.add_zero _).symm
      · rw [hf]
        rfl
    | true =>
      have hin := hok.mp rfl
      have hid₁ : t₁.id s = (0#64, 0#32) := by
        rw [hf]
        exact hid
      have hassign : assignId t₁ s = { t₁ with
          id := Function.update t₁.id s (t₁.stateid, t₁.hostid), stateid := t₁.stateid + 1 } := by
        rw [assignId, if_pos hid₁]
      have hstateid : t₁.stateid = t.stateid := by rw [hf]
      have hhostid : t₁.hostid = t.hostid := by rw [hf]
      have hids : t₁.id = t.id := by rw [hf]
      have hidin : (∀ a ∈ t₁.treeId, t₁.id a ≠ (t₁.stateid, t₁.hostid)) ↔ IdIn t (inWay t s) skw sks := by
        rw [hstateid, hhostid, hids]
        constructor
        · intro hfree a ha hida
          by_contra hno
          refine hfree a ((hroom.tree a).mpr ⟨ha, fun hal => hno ?_⟩) hida
          obtain ⟨-, hway | ⟨-, k, hk, hway⟩⟩ := (hl a).mp hal
          · exact .inl hway
          · exact .inr ⟨k, hk, hway⟩
        · intro hidin a ha hida
          obtain ⟨ha, hal⟩ := (hroom.tree a).mp ha
          refine hal ((hl a).mpr ⟨hin.1, ?_⟩)
          obtain hway | ⟨k, hk, hway⟩ := hidin a ha hida
          · exact .inl hway
          · exact .inr ⟨hin.2, k, hk, hway⟩
      have hs₁ : s ∉ t₁.treeId := fun hin => hs ((hroom.tree s).mp hin).1
      have hany : (t₁.treeId.any fun a => decide (Function.update t₁.id s (t₁.stateid, t₁.hostid) a
          = Function.update t₁.id s (t₁.stateid, t₁.hostid) s)) = true ↔ ¬ IdIn t (inWay t s) skw sks := by
        rw [← hidin, List.any_eq_true]
        constructor
        · rintro ⟨a, ha, hida⟩ hfree
          have has : a ≠ s := fun he => hs₁ (he ▸ ha)
          rw [Function.update_self, Function.update_of_ne has, decide_eq_true_eq] at hida
          exact hfree a ha hida
        · intro hno
          push Not at hno
          obtain ⟨a, ha, hida⟩ := hno
          have has : a ≠ s := fun he => hs₁ (he ▸ ha)
          refine ⟨a, ha, ?_⟩
          rw [Function.update_self, Function.update_of_ne has, hida]
          exact decide_eq_true rfl
      dsimp only at hr
      rw [hassign] at hr
      split at hr
      · rename_i hdup
        obtain ⟨rfl, rfl⟩ := Prod.mk.inj hr
        have hout := hany.mp hdup
        have hk₁ : KeyInv t₁ none := (insertKeys_true h hnone hne hq).inv
        have hk₂ : KeyInv { t₁ with
            id := Function.update t₁.id s (t₁.stateid, t₁.hostid), stateid := t₁.stateid + 1 } none :=
          hk₁.congr ⟨rfl, rfl, rfl, rfl⟩
        obtain ⟨-, hre, -⟩ := detachState_spec hk₂ s
        have heq := hre.eq
        refine ⟨iff_of_false nofun fun hall => hout hall.2, ?_, ?_, ?_, ?_, l, fun n => ?_, hl⟩
        · rw [heq, hf]
        · rw [heq, hf]
          exact (Int.add_zero _).symm
        · rw [heq]
          exact hroom.srcNodes s hsl
        · rw [heq, hf]
          rfl
        · rw [heq]
          exact hroom.states n
      · rename_i hdup
        obtain ⟨rfl, rfl⟩ := Prod.mk.inj hr
        have hidok : IdIn t (inWay t s) skw sks := by
          by_contra hno
          exact hdup (hany.mpr hno)
        refine ⟨iff_of_true rfl ⟨hin, hidok⟩, ?_, ?_, hroom.srcNodes s hsl, ?_, l, hroom.states, hl⟩
        · rw [hf]
        · rw [hf]
          rfl
        · exact List.mem_append_right _ List.mem_cons_self

/-! ## The counts of the rules -/

/-- The rules a state counts for. -/
def rulesOf (t : Table) (s : Nat) : List Nat := t.rule s :: ((t.anchor s).toList ++ t.matchRules s)

theorem countRules_statesCur (t : Table) (s : Nat) (d : Int) (r : Nat) :
    (countRules t s d).statesCur r = t.statesCur r + d * (rulesOf t s).count r := by
  have hfold : ∀ (l : List Nat) (cur : Nat → Int),
      l.foldl (fun cur r => Function.update cur r (cur r + d)) cur r = cur r + d * l.count r := by
    intro l
    induction l with
    | nil =>
      intro cur
      rw [List.foldl_nil, List.count_nil, Int.natCast_zero, Int.mul_zero, Int.add_zero]
    | cons m l ih =>
      intro cur
      rw [List.foldl_cons, ih]
      by_cases hm : m = r
      · subst hm
        rw [Function.update_self, List.count_cons_self, Int.natCast_add, Int.mul_add, Int.natCast_one,
          Int.mul_one]
        omega
      · rw [Function.update_of_ne (Ne.symm hm), List.count_cons_of_ne hm]
  exact hfold (rulesOf t s) t.statesCur

theorem foldl_removeSrcNode_frame (l : List Nat) : ∀ t : Table,
    l.foldl pfRemoveSrcNode t = { t with srcTree := (l.foldl pfRemoveSrcNode t).srcTree } := by
  induction l with
  | nil =>
    intro t
    rfl
  | cons n l ih =>
    intro t
    have hone : pfRemoveSrcNode t n = { t with srcTree := (pfRemoveSrcNode t n).srcTree } := by
      rw [pfRemoveSrcNode]
      split
      · rfl
      · split
        · rfl
        · rfl
    rw [List.foldl_cons, ih, hone]

/-- The exit of a failure, for a state that has no source nodes yet. -/
theorem csfailed_spec (t : Table) (c : Create) (hsrc : t.srcNodes s = []) :
    csfailed t c (some s) = { t with
      srcTree := (csfailed t c (some s)).srcTree
      node := (csfailed t c (some s)).node
      srcNodes := (csfailed t c (some s)).srcNodes
      statesCur := (csfailed t c (some s)).statesCur }
    ∧ (∀ n, ((csfailed t c (some s)).node n).states = (t.node n).states)
    ∧ ∀ r, (csfailed t c (some s)).statesCur r = t.statesCur r - (rulesOf t s).count r := by
  have hframe := foldl_removeSrcNode_frame ((List.ofFn c.sns).filterMap Prod.fst) t
  unfold csfailed
  dsimp only
  generalize ((List.ofFn c.sns).filterMap Prod.fst).foldl pfRemoveSrcNode t = t₁ at hframe ⊢
  have hsub := srcTreeRemoveState_frame t₁ s
  have hstates := srcTreeRemoveState_states t₁ s
  have hsrc₁ : t₁.srcNodes s = [] := by
    rw [hframe]
    exact hsrc
  generalize pfSrcTreeRemoveState t₁ s = t₂ at hsub hstates ⊢
  refine ⟨?_, fun n => ?_, fun r => ?_⟩
  · rw [hframe] at hsub
    rw [hsub]
    rfl
  · have hnode : (countRules t₂ s (-1)).node = t₂.node := rfl
    rw [hnode, hstates, hsrc₁, List.count_nil, hframe]
    exact Int.sub_zero _
  · have hrules : rulesOf t₂ s = rulesOf t s := by
      rw [rulesOf, rulesOf, hsub, hframe]
    have hcur : t₂.statesCur = t.statesCur := by rw [hsub, hframe]
    rw [countRules_statesCur, hrules, hcur]
    omega

/-! ## What a failure leaves -/

/-- Nothing points to the state, and all counts are as before. -/
structure Undone (t t' : Table) (s : Nat) : Prop where
  items : ∀ k, s ∉ itemsOf t' k
  tree : s ∉ t'.treeId
  list : s ∉ t'.stateList
  states : t'.states = t.states
  statesCur : t'.statesCur = t.statesCur
  nodes : ∀ n, (t'.node n).states = (t.node n).states

/-- The state of a key that a new one on the interface, in the direction, finds in its way. -/
def blocker (t : Table) (kif : Kif) (dir : Dir) (k : StateKey) : Option Nat :=
  (itemsOf t k).find? fun a => decide (t.kif a = kif) && decide (t.direction a = dir)

/-- The table when the insertion begins. -/
def prepared (t : Table) (s : Nat) (c : Create) : Table :=
  { countRules (newState t s c.newState) s 1 with kif := Function.update t.kif s c.boundIface }

theorem prepared_eq (t : Table) (s : Nat) (c : Create) : ∃ cur, prepared t s c =
    { newState { t with statesCur := cur } s c.newState with
      kif := Function.update t.kif s c.boundIface } :=
  ⟨(countRules (newState t s c.newState) s 1).statesCur, rfl⟩

theorem Inv.recount (h : Inv t) (cur : Nat → Int) : Inv { t with statesCur := cur } :=
  ⟨h.keys.congr ⟨rfl, rfl, rfl, rfl⟩, ⟨h.linked.tree, h.linked.attached, h.linked.detached,
    h.linked.nodupId, h.linked.nodupList, h.linked.count⟩⟩

theorem prepared_inv (h : Inv t) (hs : s ∉ t.stateList) (c : Create) :
    KeyInv (prepared t s c) none ∧ ∀ idx, (prepared t s c).key idx s = none := by
  obtain ⟨cur, hp⟩ := prepared_eq t s c
  obtain ⟨hk, -, hnone⟩ := newState_inv (h.recount cur) hs c.newState c.boundIface
  rw [hp]
  exact ⟨hk, hnone⟩

/-- Only the new state's own fields are filled in by then. -/
theorem prepared_inWay (h : Inv t) (hs : s ∉ t.stateList) (c : Create) :
    inWay (prepared t s c) s = blocker t c.boundIface c.pd.dir := by
  have hout : s ∉ t.treeId := fun hin => hs ((h.linked.tree s).mp hin).1
  have hnone := h.linked.detached s nofun hout
  funext k
  refine List.find?_congr fun a ha => ?_
  have has : a ≠ s := by
    rintro rfl
    exact not_hasKey_of_none hnone ((h.keys.items k a).mp ha)
  change (decide (Function.update t.kif s c.boundIface a = Function.update t.kif s c.boundIface s)
    && decide (Function.update t.direction s c.pd.dir a = Function.update t.direction s c.pd.dir s)) = _
  rw [Function.update_self, Function.update_self, Function.update_of_ne has, Function.update_of_ne has]

theorem prepared_yields (c : Create) (ha : a ≠ s) : yields (prepared t s c) k a = yields t k a := by
  change (decide (k.proto = ipprotoTcp) && (decide (tcpsFinWait2 ≤ (Function.update t.peers s c.pd.peers a).1)
    && decide (tcpsFinWait2 ≤ (Function.update t.peers s c.pd.peers a).2))) = _
  rw [Function.update_of_ne ha]
  rfl

/-- The failures that are undone: those before the insertion and those at the first key; those
after it if nothing that made room had source nodes; but not one after the insertion. -/
def Undoes (t : Table) (c : Create) : Prop :=
  ¬ (0 < c.maxStates ∧ (c.maxStates : Int) ≤ t.statesCur c.r) → c.stateOk = true →
  ¬ (c.pd.proto = ipprotoTcp ∧ c.scrubOk = false) →
  ∀ skw sks, pfStateKeySetup c.pd c.wrdom c.sk1Ok c.sk2Ok = some (skw, sks) →
    let way := blocker t c.boundIface c.pd.dir
    WireIn t way skw c.items →
      (StackIn t way skw sks c.items ∧ IdIn t way skw sks → ∀ i n, c.sns i ≠ (some n, false))
      ∧ (¬ (StackIn t way skw sks c.items ∧ IdIn t way skw sks) →
        ∀ a, MadeRoom t way skw sks c.items a → t.srcNodes a = [])

/-- With nothing inserted yet, only the counts of the rules have to be taken back. -/
theorem early_undone (h : Inv t) (hs : s ∉ t.stateList) (c : Create) :
    Undone t (csfailed (countRules (newState t s c.newState) s 1) c (some s)) s := by
  have hout : s ∉ t.treeId := fun hin => hs ((h.linked.tree s).mp hin).1
  have hnone := h.linked.detached s nofun hout
  have hsrc : (countRules (newState t s c.newState) s 1).srcNodes s = [] := Function.update_self _ _ _
  obtain ⟨heq, hnode, hcur⟩ := csfailed_spec (countRules (newState t s c.newState) s 1) c hsrc
  refine ⟨fun k hin => ?_, ?_, ?_, ?_, ?_, fun n => ?_⟩
  · rw [heq] at hin
    exact not_hasKey_of_none hnone ((h.keys.items k s).mp hin)
  · rw [heq]
    exact hout
  · rw [heq]
    exact hs
  · rw [heq]
    rfl
  · funext r
    rw [hcur, countRules_statesCur]
    change t.statesCur r + 1 * ((rulesOf (newState t s c.newState) s).count r : Int)
      - ((rulesOf (newState t s c.newState) s).count r : Int) = t.statesCur r
    omega
  · rw [hnode]
    rfl

theorem noState_undone (h : Inv t) (hs : s ∉ t.stateList) (c : Create) : Undone t (csfailed t c none) s := by
  have hout : s ∉ t.treeId := fun hin => hs ((h.linked.tree s).mp hin).1
  have hnone := h.linked.detached s nofun hout
  have heq : csfailed t c none = { t with srcTree := (csfailed t c none).srcTree } :=
    foldl_removeSrcNode_frame ((List.ofFn c.sns).filterMap Prod.fst) t
  rw [heq]
  exact ⟨fun k hin => not_hasKey_of_none hnone ((h.keys.items k s).mp hin), hout, hs, rfl, rfl, fun _ => rfl⟩

theorem pdesc_key_inj {pd : Pdesc} {src dst src' dst' : List (BitVec 32)}
    {sport dport rdom sport' dport' rdom' : BitVec 16}
    (h : pd.key src dst sport dport rdom = pd.key src' dst' sport' dport' rdom') :
    src = src' ∧ dst = dst' ∧ sport = sport' ∧ dport = dport' ∧ rdom = rdom' := by
  unfold Pdesc.key at h
  cases hd : pd.dir with
  | inn =>
    rw [hd] at h
    injection h with _ _ h₁ h₂ h₃ h₄ h₅
    exact ⟨h₁, h₂, h₃, h₄, h₅⟩
  | out =>
    rw [hd] at h
    injection h with _ _ h₁ h₂ h₃ h₄ h₅
    exact ⟨h₂, h₁, h₄, h₃, h₅⟩

/-- Two keys are set up only if they differ. -/
theorem stateKeySetup_ne {pd : Pdesc} {wrdom : BitVec 16} {ok₁ ok₂ : Bool} {skw : StateKey}
    {sks : Option StateKey} (h : pfStateKeySetup pd wrdom ok₁ ok₂ = some (skw, sks)) : sks ≠ some skw := by
  have hnat : pd.nat wrdom = true → pd.key pd.src pd.dst pd.osport pd.odport pd.rdomain
      ≠ pd.key pd.nsaddr pd.ndaddr pd.nsport pd.ndport wrdom := by
    intro hn he
    obtain ⟨h₁, h₂, h₃, h₄, h₅⟩ := pdesc_key_inj he
    rw [Pdesc.nat, ← h₁, ← h₂, ← h₃, ← h₄, ← h₅] at hn
    simp at hn
  unfold pfStateKeySetup at h
  split at h
  · cases h
  · split at h
    · rename_i hn
      split at h
      · cases h
      · split at h
        · obtain ⟨rfl, rfl⟩ := Prod.mk.inj (Option.some.inj h)
          exact fun he => hnat hn (Option.some.inj he).symm
        · obtain ⟨rfl, rfl⟩ := Prod.mk.inj (Option.some.inj h)
          exact fun he => hnat hn (Option.some.inj he)
    · obtain ⟨rfl, rfl⟩ := Prod.mk.inj (Option.some.inj h)
      nofun

theorem attachSrcNodes_treeId (s : Nat) (l : List (Option Nat × Bool)) : ∀ t : Table,
    (attachSrcNodes s l t).1.treeId = t.treeId := by
  induction l with
  | nil =>
    intro t
    rfl
  | cons x l ih =>
    intro t
    obtain ⟨n, ok⟩ := x
    cases n with
    | none => exact ih t
    | some n =>
      cases ok with
      | false => rfl
      | true => exact ih _

theorem attachSrcNodes_ok_iff (s : Nat) (l : List (Option Nat × Bool)) : ∀ t : Table,
    (attachSrcNodes s l t).2 = true ↔ ∀ n, (some n, false) ∉ l := by
  induction l with
  | nil =>
    intro t
    exact iff_of_true rfl fun n hn => nomatch hn
  | cons x l ih =>
    intro t
    obtain ⟨n, ok⟩ := x
    cases n with
    | none =>
      refine (ih t).trans (forall_congr' fun n => ?_)
      rw [List.mem_cons]
      exact not_congr ⟨.inr, fun he => he.resolve_left nofun⟩
    | some m =>
      cases ok with
      | false => exact iff_of_false nofun fun h => h m List.mem_cons_self
      | true =>
        refine (ih _).trans (forall_congr' fun n => ?_)
        rw [List.mem_cons]
        exact not_congr ⟨.inr, fun he => he.resolve_left nofun⟩

/-- The conditions in terms of the table before the call. -/
theorem prepared_conditions (h : Inv t) (hs : s ∉ t.stateList) (c : Create) (skw : StateKey)
    (sks : Option StateKey) :
    (WireIn (prepared t s c) (inWay (prepared t s c) s) skw c.items
      ↔ WireIn t (blocker t c.boundIface c.pd.dir) skw c.items)
    ∧ (StackIn (prepared t s c) (inWay (prepared t s c) s) skw sks c.items
      ↔ StackIn t (blocker t c.boundIface c.pd.dir) skw sks c.items)
    ∧ (IdIn (prepared t s c) (inWay (prepared t s c) s) skw sks
      ↔ IdIn t (blocker t c.boundIface c.pd.dir) skw sks) := by
  have hout : s ∉ t.treeId := fun hin => hs ((h.linked.tree s).mp hin).1
  obtain ⟨hk, hnone₀⟩ := prepared_inv h hs c
  have hyields : ∀ k a, blocker t c.boundIface c.pd.dir k = some a →
      yields (prepared t s c) k a = yields t k a := by
    intro k a ha
    refine prepared_yields c ?_
    rintro rfl
    rw [← prepared_inWay h hs c] at ha
    exact not_hasKey_of_none hnone₀ (hk.inWay_iff.mp ha).1
  rw [prepared_inWay h hs c]
  refine ⟨and_congr_right fun _ => forall₂_congr fun a ha => ?_, forall₂_congr fun k _ =>
    and_congr_right fun _ => forall₂_congr fun a ha => ?_, ?_⟩
  · rw [hyields skw a ha]
  · rw [hyields k a ha]
  · refine forall₂_congr fun a ha => ?_
    have has : a ≠ s := fun he => hout (he ▸ ha)
    change (Function.update t.id s (0#64, 0#32) a = (t.stateid, t.hostid) → _) ↔ _
    rw [Function.update_of_ne has]

/-- From the insertion on: what the failure leaves is undone, or not. -/
theorem createInsert_undone_iff (h : Inv t) (hs : s ∉ t.stateList) (c : Create) {skw : StateKey}
    {sks : Option StateKey} (hne : sks ≠ some skw) :
    ((createInsert (countRules (newState t s c.newState) s 1) s c skw sks).2 = .drop →
      Undone t (createInsert (countRules (newState t s c.newState) s 1) s c skw sks).1 s)
    ↔ (WireIn t (blocker t c.boundIface c.pd.dir) skw c.items →
      (StackIn t (blocker t c.boundIface c.pd.dir) skw sks c.items
        ∧ IdIn t (blocker t c.boundIface c.pd.dir) skw sks → ∀ i n, c.sns i ≠ (some n, false))
      ∧ (¬ (StackIn t (blocker t c.boundIface c.pd.dir) skw sks c.items
        ∧ IdIn t (blocker t c.boundIface c.pd.dir) skw sks) →
        ∀ a, MadeRoom t (blocker t c.boundIface c.pd.dir) skw sks c.items a → t.srcNodes a = [])) := by
  have hout : s ∉ t.treeId := fun hin => hs ((h.linked.tree s).mp hin).1
  obtain ⟨hk₀, hnone₀⟩ := prepared_inv h hs c
  obtain ⟨hwire, hstack, hidin⟩ := prepared_conditions h hs c skw sks
  have hinv := stateInsert_inv (h.recount (countRules (newState t s c.newState) s 1).statesCur) hs
    c.newState c.boundIface hne c.items
  change Inv (pfStateInsert (countRules (newState t s c.newState) s 1) c.boundIface skw sks s c.items).1
    at hinv
  unfold createInsert
  cases hr : pfStateInsert (countRules (newState t s c.newState) s 1) c.boundIface skw sks s c.items with
  | mk t₁ ok =>
    rw [hr] at hinv
    have hid₀ : (prepared t s c).id s = (0#64, 0#32) := Function.update_self _ _ _
    have hp : prepared t s c = { countRules (newState t s c.newState) s 1 with
        kif := Function.update (countRules (newState t s c.newState) s 1).kif s c.boundIface } := rfl
    obtain ⟨hok, hframe, hstates, hsrc, hwhere, l, hnode, hl⟩ := stateInsert_outcome hp hk₀
      h.linked.nodupId hout hnone₀ hid₀ hne c.items hr
    rw [hwire, hstack, hidin] at hok
    cases ok with
    | false =>
      have hs₁ : s ∉ t₁.stateList := by
        rw [show t₁.stateList = t.stateList from hwhere]
        exact hs
      have hout₁ : s ∉ t₁.treeId := fun hin => hs₁ ((hinv.linked.tree s).mp hin).1
      have hnone₁ := hinv.linked.detached s (by simp) hout₁
      have hdet : pfStateKeyDetach (pfStateKeyDetach t₁ s .stack) s .wire = t₁ := by
        have hone : pfStateKeyDetach t₁ s .stack = t₁ := by rw [pfStateKeyDetach, hnone₁]
        rw [hone, pfStateKeyDetach, hnone₁]
      dsimp only
      rw [hdet]
      have hsrc₁ : t₁.srcNodes s = [] := by
        rw [hsrc]
        exact Function.update_self _ _ _
      obtain ⟨heq, hnode₂, hcur₂⟩ := csfailed_spec t₁ c hsrc₁
      have hcur : (csfailed t₁ c (some s)).statesCur = t.statesCur := by
        funext r
        have hrules : rulesOf t₁ s = rulesOf (newState t s c.newState) s := by
          rw [rulesOf, hframe]
          rfl
        have hcur₁ : t₁.statesCur = (countRules (newState t s c.newState) s 1).statesCur := by
          rw [hframe]
          rfl
        rw [hcur₂, hcur₁, countRules_statesCur, hrules]
        change t.statesCur r + _ - _ = _
        omega
      have hcount : ∀ n, ((csfailed t₁ c (some s)).node n).states = (t.node n).states
          - through (prepared t s c) l n := fun n => by
        rw [hnode₂, hnode]
        rfl
      have hundone : Undone t (csfailed t₁ c (some s)) s ↔ ∀ n, through (prepared t s c) l n = 0 := by
        constructor
        · intro hu n
          have hn := hu.nodes n
          rw [hcount] at hn
          omega
        · intro hzero
          refine ⟨fun k hin => ?_, ?_, ?_, ?_, hcur, fun n => ?_⟩
          · rw [heq] at hin
            exact not_hasKey_of_none hnone₁ ((hinv.keys.items k s).mp hin)
          · rw [heq]
            exact hout₁
          · rw [heq]
            exact hs₁
          · rw [heq]
            exact hstates.trans (Int.add_zero _)
          · rw [hcount, hzero]
            exact Int.sub_zero _
      have hmade : ∀ a, a ∈ l ↔ MadeRoom t (blocker t c.boundIface c.pd.dir) skw sks c.items a := by
        intro a
        rw [hl, MadeRoom, MadeRoom, hwire, hstack, prepared_inWay h hs c]
      have hsl : ∀ a ∈ l, (prepared t s c).srcNodes a = t.srcNodes a := by
        intro a ha
        have has : a ≠ s := by
          rintro rfl
          obtain ⟨-, hway | ⟨-, k, -, hway⟩⟩ := (hl a).mp ha
          · exact not_hasKey_of_none hnone₀ (hk₀.inWay_iff.mp hway).1
          · exact not_hasKey_of_none hnone₀ (hk₀.inWay_iff.mp hway).1
        exact Function.update_of_ne has _ _
      have hempty : (∀ n, through (prepared t s c) l n = 0)
          ↔ ∀ a, MadeRoom t (blocker t c.boundIface c.pd.dir) skw sks c.items a → t.srcNodes a = [] := by
        rw [through_eq_zero]
        refine forall_congr' fun a => ?_
        rw [← hmade a]
        refine forall_congr' fun ha => ?_
        rw [hsl a ha]
      have hfail : WireIn t (blocker t c.boundIface c.pd.dir) skw c.items →
          ¬ (StackIn t (blocker t c.boundIface c.pd.dir) skw sks c.items
            ∧ IdIn t (blocker t c.boundIface c.pd.dir) skw sks) :=
        fun hw hsi => Bool.false_ne_true <| hok.mpr ⟨⟨hw, hsi.1⟩, hsi.2⟩
      constructor
      · intro hu hw
        refine ⟨fun hsi => absurd hsi (hfail hw), fun _ => ?_⟩
        exact hempty.mp (hundone.mp (hu rfl))
      · intro hcond _
        refine hundone.mpr (hempty.mpr fun a ha => ?_)
        exact (hcond ha.1).2 (hfail ha.1) a ha
    | true =>
      have hall := hok.mp rfl
      have hin : s ∈ t₁.treeId := hwhere
      dsimp only
      have hnodes := attachSrcNodes_ok_iff s (List.ofFn c.sns) t₁
      have htree := attachSrcNodes_treeId s (List.ofFn c.sns) t₁
      cases ha : attachSrcNodes s (List.ofFn c.sns) t₁ with
      | mk t₂ ok₂ =>
        rw [ha] at hnodes htree
        cases ok₂ with
        | false =>
          dsimp only
          -- the state is freed, but it is in the tree of ids
          refine iff_of_false (fun hu => ?_) fun hcond => ?_
          · have hgone := (hu rfl).tree
            have hsame : (countRules (pfSrcTreeRemoveState t₂ s) s (-1)).treeId = t₂.treeId := by
              change (pfSrcTreeRemoveState t₂ s).treeId = t₂.treeId
              rw [srcTreeRemoveState_frame]
            rw [hsame] at hgone
            exact hgone (htree ▸ hin)
          · have hnone : ∀ n, (some n, false) ∉ List.ofFn c.sns := by
              intro n hn
              obtain ⟨i, hi⟩ := List.mem_ofFn.mp hn
              exact (hcond hall.1.1).1 ⟨hall.1.2, hall.2⟩ i n hi
            exact Bool.false_ne_true (hnodes.mpr hnone)
        | true =>
          refine iff_of_true (fun hd => ?_) fun _ => ⟨fun _ i n hi => ?_, fun hno =>
            absurd ⟨hall.1.2, hall.2⟩ hno⟩
          · dsimp only at hd
            split at hd
            · cases hd
            · cases hd
          · exact hnodes.mp rfl n (List.mem_ofFn.mpr ⟨i, hi⟩)

/-- Exactly when a failure of `pf_create_state` leaves nothing behind. -/
theorem create_state_undone_iff (t : Table) (s : Nat) (c : Create) (h : Inv t) (hs : s ∉ t.stateList) :
    ((pfCreateState t s c).2 = .drop → Undone t (pfCreateState t s c).1 s) ↔ Undoes t c := by
  have hout : s ∉ t.treeId := fun hin => hs ((h.linked.tree s).mp hin).1
  have hnone := h.linked.detached s nofun hout
  unfold pfCreateState Undoes
  split
  · rename_i hmax
    refine iff_of_true (fun _ => ?_) fun hno => absurd hmax hno
    exact ⟨fun k hin => not_hasKey_of_none hnone ((h.keys.items k s).mp hin), hout, hs, rfl, rfl,
      fun _ => rfl⟩
  · rename_i hmax
    split
    · rename_i hst
      refine iff_of_true (fun _ => noState_undone h hs c) fun _ hst' => ?_
      rw [hst'] at hst
      cases hst
    · rename_i hst
      have hst : c.stateOk = true := by
        cases hok : c.stateOk with
        | true => rfl
        | false => exact absurd (by rw [hok]; rfl) hst
      split
      · rename_i hscrub
        exact iff_of_true (fun _ => early_undone h hs c) fun _ _ hno => absurd hscrub hno
      · rename_i hscrub
        cases hk : pfStateKeySetup c.pd c.wrdom c.sk1Ok c.sk2Ok with
        | none => exact iff_of_true (fun _ => early_undone h hs c) fun _ _ _ _ _ hkeys => nomatch hkeys
        | some ks =>
          obtain ⟨skw, sks⟩ := ks
          refine (createInsert_undone_iff h hs c (stateKeySetup_ne hk)).trans ?_
          constructor
          · rintro hcond - - - skw' sks' hkeys
            obtain ⟨rfl, rfl⟩ := Prod.mk.inj (Option.some.inj hkeys)
            exact hcond
          · intro hcond
            exact hcond hmax hst hscrub skw sks rfl

/-- A UDP packet that comes in, with a rule that tracks its source in one node. -/
def udpCreate (itemOk snOk : Bool) : Create where
  r := 0
  maxStates := 0
  ifBound := false
  synproxy := false
  anchor := none
  rules := []
  kif := .iface 0
  pd :=
    { proto := ipprotoUdp, af := .inet, dir := .inn
      src := [0x0a000001#32], dst := [0x0a000002#32], nsaddr := [0x0a000001#32], ndaddr := [0x0a000002#32]
      osport := 1000#16, odport := 53#16, nsport := 1000#16, ndport := 53#16, rdomain := 0#16 }
  wrdom := 0#16
  synOnly := false
  sns i := if i.val = 0 then (some 9, snOk) else (none, true)
  stateOk := true
  scrubOk := true
  sk1Ok := true
  sk2Ok := true
  items := { wire := itemOk }

theorem freshTable_inv : Inv freshTable := freshTable_empty.inv

/-- Without memory for the key's item the state goes without a trace. -/
theorem create_state_undone_no_item : (pfCreateState freshTable 5 (udpCreate false true)).2 = .drop
    ∧ Undone freshTable (pfCreateState freshTable 5 (udpCreate false true)).1 5 := by
  have hdrop : (pfCreateState freshTable 5 (udpCreate false true)).2 = .drop := by decide
  have hfresh : 5 ∉ freshTable.stateList := by decide
  have hundoes : Undoes freshTable (udpCreate false true) := by
    intro _ _ _ skw sks _ way hwire
    exact absurd hwire.1 Bool.false_ne_true
  exact ⟨hdrop, (create_state_undone_iff freshTable 5 (udpCreate false true) freshTable_inv hfresh).mpr
    hundoes hdrop⟩

/-- Without memory for the source node's item the state stays in the tree of ids and on the
list, and is still counted, after it was freed. -/
theorem create_state_leaves_freed : (pfCreateState freshTable 5 (udpCreate true false)).2 = .drop
    ∧ (pfCreateState freshTable 5 (udpCreate true false)).1.treeId = [5]
    ∧ (pfCreateState freshTable 5 (udpCreate true false)).1.stateList = [5]
    ∧ (pfCreateState freshTable 5 (udpCreate true false)).1.states = 1
    ∧ ¬ Undone freshTable (pfCreateState freshTable 5 (udpCreate true false)).1 5 := by
  have htree : (pfCreateState freshTable 5 (udpCreate true false)).1.treeId = [5] := by decide
  refine ⟨by decide, htree, by decide, by decide, fun hu => hu.tree ?_⟩
  exact List.mem_cons_self

end Obsd.PfState
