import Obsd.PfStateKeys

/-!
# Inserting a state

What an insertion does to the table, whether it goes through or not. On the
way a state that is closing may have to make room (`makeRoom`), at each of
the two keys; with that said once (`Attached`), what becomes of the lists,
the ids and the source nodes is read off.
-/

namespace Obsd.PfState

variable {t t' : Table} {s a b : Nat} {k : StateKey} {idx : Idx} {o : Option Nat}

/-! ## Making room -/

/-- What is left of the table, keys apart, when a state has been unlinked. -/
def makeRoom (t : Table) : Option Nat → Table
  | none => t
  | some a =>
    { pfSrcTreeRemoveState t a with
      treeId := t.treeId.erase a
      unlinked := Function.update t.unlinked a true }

/-- `t'` is `t` with other keys for `s`, for which `o` had to make room. -/
structure Attached (t t' : Table) (s : Nat) (o : Option Nat) : Prop where
  eq : t' = { makeRoom t o with statetbl := t'.statetbl, key := t'.key, peers := t'.peers }
  key : ∀ idx a, a ≠ s → o ≠ some a → t'.key idx a = t.key idx a
  gone : ∀ a, o = some a → ∀ idx, t'.key idx a = none
  peers : ∀ a, o ≠ some a → t'.peers a = t.peers a

theorem Rekeyed.attached (h : Rekeyed t t' s) : Attached t t' s none where
  eq := by
    have he := h.eq
    calc t' = { t with statetbl := t'.statetbl, key := t'.key } := he
      _ = { t with statetbl := t'.statetbl, key := t'.key, peers := t'.peers } := by
        rw [show t'.peers = t.peers by rw [he]]
  key idx a ha _ := h.key idx a ha
  gone a ha := nomatch ha
  peers a _ := by rw [h.eq]

theorem makeRoom_frame (t : Table) (o : Option Nat) : makeRoom t o = { t with
    treeId := (makeRoom t o).treeId
    unlinked := (makeRoom t o).unlinked
    node := (makeRoom t o).node
    srcNodes := (makeRoom t o).srcNodes } := by
  cases o with
  | none => rfl
  | some a =>
    have hframe := srcTreeRemoveState_frame t a
    rw [makeRoom, hframe]

/-- The rest of the table is as it was. -/
theorem Attached.frame (h : Attached t t' s o) : t' = { t with
    statetbl := t'.statetbl
    key := t'.key
    peers := t'.peers
    treeId := (makeRoom t o).treeId
    unlinked := (makeRoom t o).unlinked
    node := (makeRoom t o).node
    srcNodes := (makeRoom t o).srcNodes } := by
  have heq := h.eq
  rw [makeRoom_frame t o] at heq
  exact heq

/-! ## The state in the way -/

theorem KeyInv.inWay_iff (h : KeyInv t none) :
    inWay t s k = some a ↔ HasKey t a k ∧ sameIf t a s = true := by
  constructor
  · intro hway
    exact ⟨(h.items k a).mp (List.mem_of_find?_eq_some hway), List.find?_some (p := fun b => sameIf t b s) hway⟩
  · rintro ⟨hkey, hsame⟩
    have ha := (h.items k a).mpr hkey
    cases hway : inWay t s k with
    | none => exact absurd hsame (List.find?_eq_none.mp hway a ha)
    | some b =>
      have hb := List.mem_of_find?_eq_some hway
      have hbs : sameIf t b s = true := List.find?_some (p := fun c => sameIf t c s) hway
      by_contra hne
      have hab := sameIf_trans hsame (sameIf_comm t b s ▸ hbs)
      obtain he | he := h.apart k a ha b hb (fun he => hne (congrArg some he.symm)) hab
      · cases he
      · cases he

theorem inWay_none (h : inWay t s k = none) : ∀ b ∈ itemsOf t k, sameIf t b s = true → none = some b :=
  fun b hb hs => absurd hs (List.find?_eq_none.mp h b hb)

/-! ## One key -/

theorem keyAttach_ok_iff (h : KeyInv t none) (hnone : t.key idx s = none) (hno : ¬ HasKey t s k)
    (itemOk : Bool) : (pfStateKeyAttach t k s idx itemOk).2 = true ↔
      itemOk = true ∧ ∀ a, inWay t s k = some a → yields t k a = true := by
  rw [keyAttach_eq h hnone hno]
  cases hway : inWay t s k with
  | none =>
    cases itemOk with
    | true => exact iff_of_true rfl ⟨rfl, nofun⟩
    | false => exact iff_of_false nofun fun he => nomatch he.1
  | some a =>
    dsimp only
    cases hy : yields t k a with
    | false =>
      refine iff_of_false nofun fun he => ?_
      have hya := he.2 a rfl
      rw [hy] at hya
      cases hya
    | true =>
      cases itemOk with
      | true =>
        refine iff_of_true rfl ⟨rfl, fun b hb => ?_⟩
        rw [← Option.some.inj hb]
        exact hy
      | false => exact iff_of_false nofun fun he => nomatch he.1

/-- A key that could not be attached has at most marked the state in the way. -/
theorem keyAttach_false (h : KeyInv t none) (hnone : t.key idx s = none) (hno : ¬ HasKey t s k)
    {itemOk : Bool} (hr : pfStateKeyAttach t k s idx itemOk = (t', false)) :
    t' = { t with peers := t'.peers } := by
  rw [keyAttach_eq h hnone hno] at hr
  cases hway : inWay t s k with
  | none =>
    rw [hway] at hr
    dsimp only at hr
    split at hr
    · cases hr
    · obtain ⟨rfl, -⟩ := Prod.mk.inj hr
      rfl
  | some a =>
    rw [hway] at hr
    dsimp only at hr
    split at hr
    · split at hr
      · cases hr
      · obtain ⟨rfl, -⟩ := Prod.mk.inj hr
        rfl
    · obtain ⟨rfl, -⟩ := Prod.mk.inj hr
      rfl

theorem putItem_unlink (h : KeyInv t none) (hnone : t.key idx s = none) (hno : ¬ HasKey t s k)
    (hway : inWay t s k = some a) :
    KeyInv (pfUnlinkState (putItem (markClosed t a) s idx k) a) none
      ∧ Attached t (pfUnlinkState (putItem (markClosed t a) s idx k) a) s (some a)
      ∧ (pfUnlinkState (putItem (markClosed t a) s idx k) a).key idx s = some k
      ∧ (pfUnlinkState (putItem (markClosed t a) s idx k) a).key idx.other s = t.key idx.other s := by
  have hclosed : KeyInv (markClosed t a) none := h.congr ⟨rfl, rfl, rfl, rfl⟩
  have hmark : KeyInv (markClosed t a) (some a) := hclosed.weaken (some a)
  have hput : KeyInv (putItem (markClosed t a) s idx k) (some a) := by
    refine putItem_inv hmark hnone hno fun b hb hbs => ?_
    rw [← hway]
    exact h.inWay_iff.mpr ⟨(h.items k b).mp hb, hbs⟩
  have hne : s ≠ a := by
    rintro rfl
    exact hno (h.inWay_iff.mp hway).1
  obtain ⟨hre, hself, hother⟩ := putItem_rekeyed (markClosed t a) s idx k
  obtain ⟨hinv, hu⟩ := unlinkState_spec hput a
  generalize hp : putItem (markClosed t a) s idx k = p at *
  generalize hr : pfUnlinkState p a = r at *
  refine ⟨hinv.strengthen fun k' hk' => ?_, ⟨?_, fun idx' b hb hba => ?_, fun b hb => ?_, fun b hb => ?_⟩,
    ?_, ?_⟩
  · rcases hk' with he | he
    · rw [hu.none] at he
      cases he
    · rw [hu.none] at he
      cases he
  · have heq := hu.eq
    have hcomm := srcTreeRemoveState_comm t a p.statetbl p.key p.peers t.treeId t.unlinked
    have hpe : p = { t with statetbl := p.statetbl, key := p.key, peers := p.peers } := by
      rw [← hp]
      rfl
    have hids : p.treeId = t.treeId := by rw [hpe]
    have hunl : p.unlinked = t.unlinked := by rw [hpe]
    have hpe' : p = { t with
        statetbl := p.statetbl, key := p.key, peers := p.peers
        treeId := t.treeId, unlinked := t.unlinked } := hpe
    rw [hids, hunl] at heq
    rw [← hpe'] at hcomm
    rw [hcomm] at heq
    have hpeers : r.peers = p.peers := by rw [heq]
    rw [hpeers]
    exact heq
  · rw [hu.key idx' b fun he => hba (congrArg some he.symm), hre.key idx' b hb]
    rfl
  · obtain rfl := Option.some.inj hb
    exact hu.none
  · have hpeers : r.peers = p.peers := by
      rw [hu.eq, srcTreeRemoveState_frame]
    rw [hpeers, ← hp]
    exact Function.update_of_ne (fun he => hb (congrArg some he.symm)) _ _
  · rw [hu.key idx s hne, hself]
  · rw [hu.key idx.other s hne, hother]
    rfl

theorem keyAttach_true (h : KeyInv t none) (hnone : t.key idx s = none) (hno : ¬ HasKey t s k)
    {itemOk : Bool} (hr : pfStateKeyAttach t k s idx itemOk = (t', true)) :
    KeyInv t' none ∧ Attached t t' s (inWay t s k) ∧ t'.key idx s = some k
      ∧ t'.key idx.other s = t.key idx.other s := by
  rw [keyAttach_eq h hnone hno] at hr
  cases hway : inWay t s k with
  | none =>
    rw [hway] at hr
    dsimp only at hr
    split at hr
    · obtain ⟨rfl, -⟩ := Prod.mk.inj hr
      obtain ⟨hre, hself, hother⟩ := putItem_rekeyed t s idx k
      exact ⟨putItem_inv h hnone hno (inWay_none hway), hre.attached, hself, hother⟩
    · cases hr
  | some a =>
    rw [hway] at hr
    dsimp only at hr
    split at hr
    · split at hr
      · obtain ⟨rfl, -⟩ := Prod.mk.inj hr
        exact putItem_unlink h hnone hno hway
      · cases hr
    · cases hr

/-! ## Both keys -/

/-- A state has the keys, and whatever was in its way made room. -/
structure Keyed (t t' : Table) (s : Nat) (skw : StateKey) (sks : Option StateKey) : Prop where
  inv : KeyInv t' none
  wire : t'.key .wire s = some skw
  stack : t'.key .stack s = some (sks.getD skw)
  room : match sks with
    | none => Attached t t' s (inWay t s skw)
    | some k => ∃ t₁, KeyInv t₁ none ∧ ¬ HasKey t₁ s k ∧ Attached t t₁ s (inWay t s skw)
      ∧ Attached t₁ t' s (inWay t₁ s k)

/-- A state has no key again; what was in its way at the first key may have made room. -/
structure Unkeyed (t t' : Table) (s : Nat) (skw : StateKey) : Prop where
  inv : KeyInv t' none
  none : ∀ idx, t'.key idx s = none
  room : t' = { t with peers := t'.peers } ∨ ∃ t₁, Attached t t₁ s (inWay t s skw)
    ∧ t' = { t₁ with statetbl := t'.statetbl, key := t'.key, peers := t'.peers }
    ∧ ∀ idx a, a ≠ s → t'.key idx a = t₁.key idx a

/-- A second name for the only key. -/
theorem KeyInv.alias (h : KeyInv t none) (hstack : t.key .stack s = none) :
    KeyInv { t with key :=
      Function.update t.key .stack (Function.update (t.key .stack) s (t.key .wire s)) } none := by
  refine ⟨h.nonempty, h.nodup, h.sorted, h.apart, fun k a => ?_⟩
  have hitems := h.items k a
  change a ∈ itemsOf t k ↔ _
  rw [hitems, hasKey_iff .stack, hasKey_iff .stack]
  dsimp only
  rw [update_key_other]
  by_cases ha : a = s
  · subst ha
    rw [update_key_same, hstack]
    exact ⟨fun he => .inr (he.resolve_left nofun), fun he => .inr (he.elim id id)⟩
  · rw [update_key_ne t .stack .stack _ ha]

theorem not_hasKey_of_none (h : ∀ idx, t.key idx s = none) : ¬ HasKey t s k := by
  rintro (he | he)
  · rw [h] at he
    cases he
  · rw [h] at he
    cases he

theorem insertKeys_true (h : KeyInv t none) (hnone : ∀ idx, t.key idx s = none) {skw : StateKey}
    {sks : Option StateKey} (hne : sks ≠ some skw) {items : Items}
    (hr : insertKeys t skw sks s items = (t', true)) : Keyed t t' s skw sks := by
  unfold insertKeys at hr
  have hno : ∀ k, ¬ HasKey t s k := fun k => not_hasKey_of_none hnone
  cases hq : pfStateKeyAttach t skw s .wire items.wire with
  | mk t₁ ok =>
    cases ok with
    | false =>
      cases sks with
      | none =>
        rw [hq] at hr
        cases hr
      | some sks =>
        rw [hq] at hr
        cases hr
    | true =>
      obtain ⟨hinv, hatt, hwire, hstack⟩ := keyAttach_true h (hnone _) (hno skw) hq
      have hstack : t₁.key .stack s = none := hstack.trans (hnone .stack)
      cases sks with
      | none =>
        rw [hq] at hr
        obtain ⟨rfl, -⟩ := Prod.mk.inj hr
        refine ⟨hinv.alias hstack, ?_, ?_, ⟨?_, fun idx a ha hao => ?_, fun a ha idx => ?_, hatt.peers⟩⟩
        · exact (update_key_other t₁ .stack s (t₁.key .wire s) s).trans hwire
        · exact (update_key_same t₁ .stack s (t₁.key .wire s)).trans hwire
        · have heq := hatt.eq
          rw [heq]
        · exact (update_key_ne t₁ .stack idx (t₁.key .wire s) ha).trans (hatt.key idx a ha hao)
        · have has : a ≠ s := by
            rintro rfl
            rw [hatt.gone a ha] at hwire
            cases hwire
          exact (update_key_ne t₁ .stack idx (t₁.key .wire s) has).trans (hatt.gone a ha idx)
      | some sks =>
        rw [hq] at hr
        dsimp only at hr
        have hno₁ : ¬ HasKey t₁ s sks := by
          rintro (he | he)
          · rw [hwire] at he
            exact hne he.symm
          · rw [hstack] at he
            cases he
        cases hq₂ : pfStateKeyAttach t₁ sks s .stack items.stack with
        | mk t₂ ok₂ =>
          rw [hq₂] at hr
          cases ok₂ with
          | false => cases hr
          | true =>
            obtain ⟨rfl, -⟩ := Prod.mk.inj hr
            obtain ⟨hinv₂, hatt₂, hstack₂, hwire₂⟩ := keyAttach_true hinv hstack hno₁ hq₂
            exact ⟨hinv₂, hwire₂.trans hwire, hstack₂, t₁, hinv, hno₁, hatt, hatt₂⟩

theorem insertKeys_false (h : KeyInv t none) (hnone : ∀ idx, t.key idx s = none) {skw : StateKey}
    {sks : Option StateKey} (hne : sks ≠ some skw) {items : Items}
    (hr : insertKeys t skw sks s items = (t', false)) : Unkeyed t t' s skw := by
  have hno : ∀ k, ¬ HasKey t s k := fun k => not_hasKey_of_none hnone
  have hfail : ∀ t₁, t₁ = { t with peers := t₁.peers } → Unkeyed t t₁ s skw := by
    intro t₁ ht₁
    refine ⟨h.congr ⟨?_, ?_, ?_, ?_⟩, fun idx => ?_, .inl ht₁⟩
    · rw [ht₁]
    · rw [ht₁]
    · rw [ht₁]
    · rw [ht₁]
    · rw [ht₁]
      exact hnone idx
  unfold insertKeys at hr
  cases hq : pfStateKeyAttach t skw s .wire items.wire with
  | mk t₁ ok =>
    cases ok with
    | false =>
      have hf := hfail t₁ (keyAttach_false h (hnone _) (hno skw) hq)
      cases sks with
      | none =>
        rw [hq] at hr
        obtain ⟨rfl, -⟩ := Prod.mk.inj hr
        exact hf
      | some sks =>
        rw [hq] at hr
        obtain ⟨rfl, -⟩ := Prod.mk.inj hr
        exact hf
    | true =>
      obtain ⟨hinv, hatt, hwire, hstack⟩ := keyAttach_true h (hnone _) (hno skw) hq
      have hstack : t₁.key .stack s = none := hstack.trans (hnone .stack)
      cases sks with
      | none =>
        rw [hq] at hr
        cases hr
      | some sks =>
        rw [hq] at hr
        dsimp only at hr
        have hno₁ : ¬ HasKey t₁ s sks := by
          rintro (he | he)
          · rw [hwire] at he
            exact hne he.symm
          · rw [hstack] at he
            cases he
        cases hq₂ : pfStateKeyAttach t₁ sks s .stack items.stack with
        | mk t₂ ok₂ =>
          rw [hq₂] at hr
          cases ok₂ with
          | true => cases hr
          | false =>
            obtain ⟨rfl, -⟩ := Prod.mk.inj hr
            -- the second key failed: the first is taken back
            have ht₂ := keyAttach_false hinv hstack hno₁ hq₂
            have hinv₂ : KeyInv t₂ none := by
              refine hinv.congr ⟨?_, ?_, ?_, ?_⟩ <;> rw [ht₂]
            have hstack₂ : t₂.key .stack s = none := by
              rw [ht₂]
              exact hstack
            have hwire₂ : t₂.key .wire s = some skw := by
              rw [ht₂]
              exact hwire
            obtain ⟨hre, hself, hother⟩ := keyDetach_rekeyed t₂ s .wire
            refine ⟨keyDetach_inv hinv₂ (.inr ?_), fun idx => ?_, .inr ⟨t₁, hatt, ?_, fun idx a ha => ?_⟩⟩
            · change t₂.key .stack s ≠ _
              rw [hstack₂, hwire₂]
              nofun
            · cases idx with
              | wire => exact hself
              | stack => exact hother.trans hstack₂
            · obtain ⟨heq, -⟩ := hre
              generalize pfStateKeyDetach t₂ s .wire = u at heq ⊢
              have hpeers : u.peers = t₂.peers := by rw [heq]
              rw [hpeers]
              rw [ht₂] at heq
              exact heq
            · rw [hre.key idx a ha, ht₂]

end Obsd.PfState
