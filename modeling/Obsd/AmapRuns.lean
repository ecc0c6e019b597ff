import Obsd.AmapOps
import Obsd.Runs

/-!
# The slots of amaps, over any run

Any number of amaps, and every operation on them in any order: what comes
from a map entry, an offset and a length, is only assumed to be inside the
amap. `AmapOk` is what each operation keeps of every amap; the slots are
the part of it that the theorem is about, and the counts are there because
a reference that goes takes anons with it.
-/

namespace Obsd.Amap

variable {am am' : VmAmap} {s s' : State} {x x' : System} {g : Nat → Int} {k : Nat}

/-! ## Operations -/

structure System where
  amaps : Nat → Option VmAmap
  anRef : Nat → Int

def System.set (x : System) (k : Nat) (s : State) : System where
  amaps := Function.update x.amaps k (some s.am)
  anRef := s.anRef

/-- Do something with the amap `k`. -/
def System.on (x : System) (k : Nat) (f : State → Option State) : Option System :=
  (x.amaps k).bind fun am => (f { am := am, anRef := x.anRef }).map (x.set k)

/-- The operations on the amap `k`. The functions are what was in the memory that the allocator
gave, and the arguments that end in `Ok` are whether it did. -/
inductive Op where
  | alloc (k slots padslots : Nat) (junkSlots junkBck : Nat → Nat)
  | add (k slot anon : Nat) (replace : Bool)
  | unadd (k slot : Nat)
  | wiperange (k slotoff slots : Nat)
  | extend (k slotoff slotmapped slotadd : Nat) (pprefOk slotsOk : Bool) (junk : Nat → Nat)
  /-- The copy, if one is made, becomes `new`. -/
  | copy (k new pageoff slots : Nat) (junkSlots junkBck : Nat → Nat) (junkAnon : Nat → Option Nat)
  | ref (k offset len : Nat) (shared refall mallocOk : Bool)
  | unref (k offset len : Nat) (all mallocOk : Bool)
  | splitref (k pageoff leftslots : Nat) (mallocOk : Bool)

/-- `none` is a panic, or an operation on what is not there. -/
def exec (x : System) : Op → Option System
  | .alloc k slots padslots junkSlots junkBck =>
    if (x.amaps k).isSome then none
    else some { x with amaps := Function.update x.amaps k (some (amapAlloc slots padslots junkSlots junkBck)) }
  | .add k slot anon replace => x.on k fun s => (amapAdd s.am slot anon replace).map fun am => { s with am := am }
  | .unadd k slot => x.on k fun s => (amapUnadd s.am slot).map fun am => { s with am := am }
  | .wiperange k slotoff slots => x.on k fun s => amapWiperange s slotoff slots
  | .extend k slotoff slotmapped slotadd pprefOk slotsOk junk =>
    x.on k fun s => (amapExtend s slotoff slotmapped slotadd pprefOk slotsOk junk).map Prod.fst
  | .copy k new pageoff slots junkSlots junkBck junkAnon =>
    (x.amaps k).bind fun am =>
      if am.amRef = 1 then some x
      else if (x.amaps new).isSome then none
      else
        (amapCopy { am := am, anRef := x.anRef } pageoff slots junkSlots junkBck junkAnon).map fun (s, am) =>
          { amaps := Function.update (x.set k s).amaps new (some am), anRef := s.anRef }
  | .ref k offset len shared refall mallocOk => x.on k fun s => amapRef s offset len shared refall mallocOk
  | .unref k offset len all mallocOk =>
    (x.amaps k).bind fun am =>
      match amapUnref { am := am, anRef := x.anRef } offset len all mallocOk with
      | .panic => none
      | .freed anRef => some { amaps := Function.update x.amaps k none, anRef := anRef }
      | .kept s => some (x.set k s)
  | .splitref k pageoff leftslots mallocOk =>
    x.on k fun s => (amapSplitref s.am pageoff leftslots mallocOk).map fun am => { s with am := am }

/-- A range that ends at `stop` is in the amap `k`. -/
def System.within (x : System) (k stop : Nat) : Bool := (x.amaps k).all fun am => decide (stop ≤ am.amNslot)

/-- The ranges of the operations are in their amaps. The operations on one slot check that
themselves. -/
def inBounds (x : System) : Op → Bool
  | .wiperange k slotoff slots => x.within k (slotoff + slots)
  | .extend k slotoff slotmapped _ _ _ _ => x.within k (slotoff + slotmapped)
  | .copy k _ pageoff slots _ _ _ => x.within k (pageoff + slots)
  | .ref k offset len _ _ _ => x.within k (offset + len)
  | .unref k offset len _ _ => x.within k (offset + len)
  | _ => true

/-! ## What every operation keeps -/

structure AmapOk (am : VmAmap) : Prop where
  inv : SlotInv am
  counts : ∃ g, Counts am g
  ref : 1 ≤ am.amRef

theorem AmapOk.same (h : AmapOk am) (hsame : SameMap am am') (hinv : SlotInv am') : AmapOk am' := by
  obtain ⟨g, hg⟩ := h.counts
  have heq := hsame.eq
  refine ⟨hinv, ⟨g, ?_⟩, ?_⟩
  · rw [heq]
    exact hg
  · rw [heq]
    exact h.ref

theorem Fresh.ok (h : Fresh am) : AmapOk am := by
  refine ⟨h.inv, ⟨fun _ => 0, counts_of_not_inUse ?_⟩, Int.le_of_eq h.ref.symm⟩
  rw [h.null]
  rfl

theorem Settled.ok {lo hi : Nat} (h : Settled am am' g lo hi) (href : 1 ≤ am.amRef) : AmapOk am' := by
  refine ⟨h.inv, ⟨g, h.counts⟩, ?_⟩
  rw [h.eq]
  exact href

theorem add_ok {slot anon : Nat} {replace : Bool} (h : AmapOk am) (hr : amapAdd am slot anon replace = some am') :
    AmapOk am' := by
  rw [amapAdd] at hr
  split at hr
  · cases hr
  · rename_i hslot
    split at hr
    · cases hanon : am.amAnon slot with
      | none =>
        rw [hanon] at hr
        cases hr
      | some old =>
        rw [hanon] at hr
        obtain rfl := Option.some.inj hr
        exact h.same ⟨rfl⟩ (replaceAnon_inv anon h.inv (Nat.not_le.mp hslot) (hanon ▸ rfl))
    · cases hanon : am.amAnon slot with
      | none =>
        rw [hanon] at hr
        obtain rfl := Option.some.inj hr
        exact h.same ⟨rfl⟩ (addSlot_inv anon h.inv (Nat.not_le.mp hslot) hanon)
      | some old =>
        rw [hanon] at hr
        cases hr

theorem unadd_ok {slot : Nat} (h : AmapOk am) (hr : amapUnadd am slot = some am') : AmapOk am' := by
  rw [amapUnadd] at hr
  split at hr
  · cases hr
  · rename_i hslot
    cases hanon : am.amAnon slot with
    | none =>
      rw [hanon] at hr
      cases hr
    | some old =>
      rw [hanon] at hr
      obtain rfl := Option.some.inj hr
      exact h.same (dropSlot_same am slot).1 (dropSlot_inv h.inv (Nat.not_le.mp hslot) (hanon ▸ rfl))

theorem wiperange_ok {slotoff slots : Nat} (h : AmapOk s.am) (hle : slotoff + slots ≤ s.am.amNslot)
    (hr : amapWiperange s slotoff slots = some s') : AmapOk s'.am := by
  obtain ⟨s₁, hs₁, hwiped⟩ := wiperange_spec h.inv hle
  obtain rfl : s₁ = s' := Option.some.inj (hs₁.symm.trans hr)
  exact h.same hwiped.same hwiped.inv

theorem extend_ok {slotoff slotmapped slotadd : Nat} {pprefOk slotsOk : Bool} {junk : Nat → Nat} {err : Option Errno}
    (h : AmapOk s.am) (hle : slotoff + slotmapped ≤ s.am.amNslot)
    (hr : amapExtend s slotoff slotmapped slotadd pprefOk slotsOk junk = some (s', err)) : AmapOk s'.am := by
  obtain ⟨g, hg⟩ := h.counts
  obtain ⟨s₁, e, hs₁, hcase⟩ | ⟨s₁, hs₁, hext, -⟩ := extend_spec slotadd pprefOk slotsOk junk hg h.inv hle
  · obtain ⟨rfl, -⟩ := Prod.mk.inj (Option.some.inj (hs₁.symm.trans hr))
    obtain ⟨-, rfl⟩ | ⟨-, rfl | ⟨-, -, rfl⟩⟩ := hcase
    · exact h
    · exact h
    · exact ⟨h.inv.congr rfl rfl rfl rfl rfl rfl, ⟨g, counts_of_not_inUse rfl⟩, h.ref⟩
  · obtain ⟨rfl, -⟩ := Prod.mk.inj (Option.some.inj (hs₁.symm.trans hr))
    refine ⟨hext.inv, ⟨_, hext.counts⟩, ?_⟩
    rw [hext.ref]
    exact h.ref

theorem copy_ok {pageoff slots : Nat} {junkSlots junkBck : Nat → Nat} {junkAnon : Nat → Option Nat}
    (h : AmapOk s.am) (hle : pageoff + slots ≤ s.am.amNslot) (href : s.am.amRef ≠ 1)
    (hr : amapCopy s pageoff slots junkSlots junkBck junkAnon = some (s', am')) : AmapOk s'.am ∧ AmapOk am' := by
  obtain ⟨g, hg⟩ := h.counts
  have h1 := h.ref
  refine ⟨?_, (copy_fresh hr).1.ok⟩
  obtain ⟨-, -, -, -, -, hnone⟩ | ⟨s₁, new, shared, hs₁, hset⟩ :=
    copy_source junkSlots junkBck junkAnon hg h.inv hle
  · rw [hnone] at hr
    cases hr
  · obtain ⟨rfl, -⟩ := Prod.mk.inj (Option.some.inj (hs₁.symm.trans hr))
    refine hset.ok ?_
    change 1 ≤ s.am.amRef - 1
    omega

theorem established_ref (am : VmAmap) (len : Nat) (all mallocOk : Bool) :
    (established am len all mallocOk).amRef = am.amRef := by
  rw [established]
  split
  · cases mallocOk with
    | true => rfl
    | false => rfl
  · rfl

theorem ref_ok {offset len : Nat} {shared refall mallocOk : Bool} (h : AmapOk s.am) (hle : offset + len ≤ s.am.amNslot)
    (hr : amapRef s offset len shared refall mallocOk = some s') : AmapOk s'.am := by
  obtain ⟨g, hg⟩ := h.counts
  have h1 := h.ref
  obtain ⟨s₁, hs₁, hset, -⟩ := ref_spec shared refall mallocOk hg h.inv (by omega) hle
  obtain rfl : s₁ = s' := Option.some.inj (hs₁.symm.trans hr)
  refine hset.ok ?_
  rw [established_ref]
  change 1 ≤ s.am.amRef + 1
  omega

theorem unref_ok {offset len : Nat} {all mallocOk : Bool} (h : AmapOk s.am) (hle : offset + len ≤ s.am.amNslot)
    (hr : amapUnref s offset len all mallocOk = .kept s') : AmapOk s'.am := by
  obtain ⟨g, hg⟩ := h.counts
  have h1 := h.ref
  by_cases hlast : s.am.amRef = 1
  · rw [amapUnref, if_pos hlast] at hr
    split at hr <;> cases hr
  · obtain ⟨-, -, -, -, -, hpanic⟩ | ⟨s₁, hs₁, hset⟩ := unref_spec all mallocOk hg h.inv (by omega) hle
    · rw [hpanic] at hr
      cases hr
    · obtain rfl : s₁ = s' := Unref.kept.inj (hs₁.symm.trans hr)
      refine hset.ok ?_
      rw [established_ref, unshare_eq]
      change 1 ≤ s.am.amRef - 1
      omega

theorem splitref_ok {pageoff leftslots : Nat} {mallocOk : Bool} (h : AmapOk am)
    (hr : amapSplitref am pageoff leftslots mallocOk = some am') : AmapOk am' := by
  obtain ⟨g, hg⟩ := h.counts
  have h1 := h.ref
  rw [amapSplitref] at hr
  split at hr
  · cases hr
  · split at hr
    · cases hr
    · obtain rfl := Option.some.inj hr
      split
      · cases mallocOk with
        | true =>
          obtain ⟨hc, hinv⟩ := establish_counts h.inv (by omega : 0 ≤ am.amRef)
          refine ⟨hinv.congr rfl rfl rfl rfl rfl rfl, ⟨_, hc⟩, ?_⟩
          change 1 ≤ am.amRef + 1
          omega
        | false =>
          refine ⟨h.inv.congr rfl rfl rfl rfl rfl rfl, ⟨g, counts_of_not_inUse rfl⟩, ?_⟩
          change 1 ≤ am.amRef + 1
          omega
      · refine ⟨h.inv.congr rfl rfl rfl rfl rfl rfl, ⟨g, hg⟩, ?_⟩
        change 1 ≤ am.amRef + 1
        omega

/-! ## Runs -/

def SystemOk (x : System) : Prop := ∀ k am, x.amaps k = some am → AmapOk am

theorem SystemOk.update (h : SystemOk x) {o : Option VmAmap} (ho : ∀ am, o = some am → AmapOk am)
    {anRef : Nat → Int} : SystemOk { amaps := Function.update x.amaps k o, anRef := anRef } := by
  intro j am hj
  change Function.update x.amaps k o j = some am at hj
  by_cases hjk : j = k
  · rw [hjk, Function.update_self] at hj
    exact ho am hj
  · rw [Function.update_of_ne hjk] at hj
    exact h j am hj

theorem SystemOk.set (h : SystemOk x) (hs : AmapOk s.am) : SystemOk (x.set k s) :=
  h.update fun _ ham => Option.some.inj ham ▸ hs

theorem SystemOk.on {f : State → Option State} (h : SystemOk x) (hr : x.on k f = some x')
    (hf : ∀ am s', x.amaps k = some am → AmapOk am → f { am := am, anRef := x.anRef } = some s' → AmapOk s'.am) :
    SystemOk x' := by
  obtain ⟨am, ham, hr⟩ := Option.bind_eq_some_iff.mp hr
  obtain ⟨s', hs', rfl⟩ := Option.map_eq_some_iff.mp hr
  exact h.set (hf am s' ham (h k am ham) hs')

theorem within_le {stop : Nat} (h : x.within k stop = true) (ham : x.amaps k = some am) : stop ≤ am.amNslot := by
  rw [System.within, ham] at h
  exact of_decide_eq_true h

theorem exec_ok {op : Op} (hok : inBounds x op = true) (hr : exec x op = some x') (h : SystemOk x) : SystemOk x' := by
  cases op with
  | alloc k slots padslots junkSlots junkBck =>
    rw [exec] at hr
    split at hr
    · cases hr
    · obtain rfl := Option.some.inj hr
      exact h.update fun am ham => Option.some.inj ham ▸ (alloc_fresh slots padslots junkSlots junkBck).ok
  | add k slot anon replace =>
    rw [exec] at hr
    refine h.on hr fun am s' _ hamok hs' => ?_
    obtain ⟨am', ham', rfl⟩ := Option.map_eq_some_iff.mp hs'
    exact add_ok hamok ham'
  | unadd k slot =>
    rw [exec] at hr
    refine h.on hr fun am s' _ hamok hs' => ?_
    obtain ⟨am', ham', rfl⟩ := Option.map_eq_some_iff.mp hs'
    exact unadd_ok hamok ham'
  | wiperange k slotoff slots =>
    rw [exec] at hr
    exact h.on hr fun am s' ham hamok hs' =>
      wiperange_ok (s := { am := am, anRef := x.anRef }) hamok (within_le hok ham) hs'
  | extend k slotoff slotmapped slotadd pprefOk slotsOk junk =>
    rw [exec] at hr
    refine h.on hr fun am s' ham hamok hs' => ?_
    obtain ⟨⟨s₁, err⟩, hs₁, rfl⟩ := Option.map_eq_some_iff.mp hs'
    exact extend_ok hamok (within_le hok ham) hs₁
  | copy k new pageoff slots junkSlots junkBck junkAnon =>
    obtain ⟨am, ham, hr⟩ := Option.bind_eq_some_iff.mp hr
    split at hr
    · obtain rfl := Option.some.inj hr
      exact h
    · rename_i href
      split at hr
      · cases hr
      · obtain ⟨⟨s₁, am₁⟩, hs₁, rfl⟩ := Option.map_eq_some_iff.mp hr
        obtain ⟨hs, hnew⟩ := copy_ok (h k am ham) (within_le hok ham) href hs₁
        exact (h.set hs).update fun _ hnew' => Option.some.inj hnew' ▸ hnew
  | ref k offset len shared refall mallocOk =>
    rw [exec] at hr
    exact h.on hr fun am s' ham hamok hs' =>
      ref_ok (s := { am := am, anRef := x.anRef }) hamok (within_le hok ham) hs'
  | unref k offset len all mallocOk =>
    obtain ⟨am, ham, hr⟩ := Option.bind_eq_some_iff.mp hr
    cases hun : amapUnref { am := am, anRef := x.anRef } offset len all mallocOk with
    | panic =>
      rw [hun] at hr
      cases hr
    | freed anRef =>
      rw [hun] at hr
      obtain rfl := Option.some.inj hr
      exact h.update fun _ hnone => by cases hnone
    | kept s =>
      rw [hun] at hr
      obtain rfl := Option.some.inj hr
      exact h.set (unref_ok (h k am ham) (within_le hok ham) hun)
  | splitref k pageoff leftslots mallocOk =>
    rw [exec] at hr
    refine h.on hr fun am s' _ hamok hs' => ?_
    obtain ⟨am', ham', rfl⟩ := Option.map_eq_some_iff.mp hs'
    exact splitref_ok hamok ham'

/-- `am_slots` and `am_bckptr` say which slots have an anon. -/
structure SlotsListed (am : VmAmap) : Prop where
  listed : ∀ slot, slot < am.amMaxslot ∧ (am.amAnon slot).isSome ↔ ∃ i < am.amNused, am.amSlots i = slot
  once : ∀ i < am.amNused, ∀ j < am.amNused, am.amSlots i = am.amSlots j → i = j
  backOfSlot : ∀ i < am.amNused, am.amBckptr (am.amSlots i) = i
  slotOfBack : ∀ slot < am.amMaxslot, (am.amAnon slot).isSome →
    am.amBckptr slot < am.amNused ∧ am.amSlots (am.amBckptr slot) = slot
  tail : ∀ slot, am.amNslot ≤ slot → slot < am.amMaxslot → am.amAnon slot = none

theorem SlotInv.slotsListed (h : SlotInv am) : SlotsListed am := by
  have hlow : ∀ slot < am.amMaxslot, (am.amAnon slot).isSome → slot < am.amNslot := by
    intro slot hslot hsome
    by_contra hge
    rw [h.tail slot (Nat.not_lt.mp hge) hslot] at hsome
    cases hsome
  refine ⟨fun slot => ⟨?_, ?_⟩, fun i hi j hj he => ?_, fun i hi => (h.used i hi).2.2, ?_, h.tail⟩
  · rintro ⟨hslot, hsome⟩
    obtain ⟨hb, hbs⟩ := h.back slot (hlow slot hslot hsome) hsome
    exact ⟨am.amBckptr slot, hb, hbs⟩
  · rintro ⟨i, hi, rfl⟩
    obtain ⟨hin, hisome, -⟩ := h.used i hi
    exact ⟨Nat.lt_of_lt_of_le hin h.size, hisome⟩
  · rw [← (h.used i hi).2.2, he, (h.used j hj).2.2]
  · intro slot hslot hsome
    exact h.back slot (hlow slot hslot hsome) hsome

/-- In every amap of a run the slots in use are listed, and `amap_wiperange` takes out the anons
of a range and no others, whichever of its loops it uses. -/
theorem amap_slots_listed {x₀ : System} (hempty : ∀ k, x₀.amaps k = none)
    (hrun : Runs exec (fun x op => inBounds x op = true) x₀ x) (hk : x.amaps k = some am) :
    SlotsListed am ∧ ∀ slotoff slots, slotoff + slots ≤ am.amNslot → ∀ s : State, s.am = am →
      ∀ r ∈ [some (wipeByAnon slots slotoff s), wipeBySlots slotoff (slotoff + slots) am.amNused 0 s,
          amapWiperange s slotoff slots],
        ∃ s', r = some s' ∧ SlotsListed s'.am
          ∧ ∀ slot, s'.am.amAnon slot = if slotoff ≤ slot ∧ slot < slotoff + slots then none else am.amAnon slot := by
  have hsys : SystemOk x := hrun.invariant (fun _ _ _ hok hr h => exec_ok hok hr h) fun k am ham => by
    rw [hempty k] at ham
    cases ham
  have hinv : SlotInv am := (hsys k am hk).inv
  refine ⟨hinv.slotsListed, fun slotoff slots hle s hs r hr => ?_⟩
  subst hs
  have hall : ∃ s', r = some s' ∧ Wiped s.am s'.am slotoff (slotoff + slots) := by
    simp only [List.mem_cons, List.not_mem_nil, or_false] at hr
    obtain rfl | rfl | rfl := hr
    · exact ⟨_, rfl, wipeByAnon_spec slots hinv hle⟩
    · exact wipeBySlots_spec s.am.amNused hinv hle (Nat.zero_add _) fun i hi => absurd hi (Nat.not_lt_zero i)
    · exact wiperange_spec hinv hle
  obtain ⟨s', rfl, hwiped⟩ := hall
  exact ⟨s', rfl, hwiped.inv.slotsListed, hwiped.anon⟩

/-- An amap of four slots is referred to twice, gets three anons and loses one, and is copied and
the copy extended. -/
def busyRun : List Op :=
  [.alloc 0 4 0 id id, .ref 0 0 4 false false true, .add 0 3 30 false, .add 0 0 10 false, .add 0 1 20 false,
    .unadd 0 0, .copy 0 1 0 4 id id fun i => some i, .extend 1 0 4 2 true true id]

theorem amap_slots_listed_copy : ∃ (x : System) (am : VmAmap),
    Runs exec (fun x op => inBounds x op = true) { amaps := fun _ => none, anRef := fun _ => 1 } x
      ∧ x.amaps 1 = some am ∧ am.amNslot = 6 ∧ am.amNused = 2 ∧ am.amSlots 0 = 1 ∧ SlotsListed am := by
  obtain ⟨x, hx⟩ : ∃ x, Runs.exec exec inBounds busyRun { amaps := fun _ => none, anRef := fun _ => 1 } = some x :=
    ⟨_, rfl⟩
  have hrun : Runs exec (fun x op => inBounds x op = true) { amaps := fun _ => none, anRef := fun _ => 1 } x :=
    Runs.of_exec (fun _ _ h => h) busyRun hx
  have hfacts : ∃ am, x.amaps 1 = some am ∧ am.amNslot = 6 ∧ am.amNused = 2 ∧ am.amSlots 0 = 1 := by
    obtain rfl := Option.some.inj hx
    exact ⟨_, rfl, rfl, rfl, rfl⟩
  obtain ⟨am, hk, hns, hnu, hslot⟩ := hfacts
  exact ⟨x, am, hrun, hk, hns, hnu, hslot, (amap_slots_listed (fun _ => rfl) hrun hk).1⟩

end Obsd.Amap
