import Obsd.AmapOps
import Obsd.Runs

/-!
# The references to an amap

One amap and the map entries that refer to it, each to a range of its
slots. `RefInv` says that the array of reference counts, from the moment it
is there, holds the number of references to each slot, and that until then
every reference is to the whole amap.

`amap_ref` breaks it. It counts the new reference in `am_ref` and only
then sets up the array from `am_ref`, so that the new reference is counted
for all slots, and once more for its own. `amap_splitref` says in a comment
that the array is to be established before a reference is added, and does
so.
-/

namespace Obsd.Amap

variable {am am' : VmAmap} {s s' : State} {g : Nat → Int} {x x' : Held} {r : Ref} {refs : List Ref} {slot : Nat}

/-! ## References and operations on them -/

/-- What a map entry refers to: some slots, or with `AMAP_REFALL` the whole amap. -/
structure Ref where
  off : Nat
  len : Nat
  all : Bool
deriving DecidableEq

def Ref.covers (r : Ref) (slot : Nat) : Bool := r.all || (decide (r.off ≤ slot) && decide (slot < r.off + r.len))

/-- An amap with the references to it. -/
structure Held where
  s : State
  refs : List Ref

/-- The number of references that cover a slot. -/
def count (refs : List Ref) (slot : Nat) : Int := (refs.countP fun r => r.covers slot : Nat)

/-- The operations, with the reference that each is by. The allocator gives the array of counts
whenever it is asked; for the arrays of a larger amap `slotsOk` is its answer. -/
inductive RefOp where
  | add (slot anon : Nat) (replace : Bool)
  | unadd (slot : Nat)
  | ref (r : Ref) (shared : Bool)
  | unref (r : Ref)
  | splitref (r : Ref) (leftslots : Nat)
  | extend (r : Ref) (slotadd : Nat) (slotsOk : Bool) (junk : Nat → Nat)
  | copy (r : Ref) (junkSlots junkBck : Nat → Nat) (junkAnon : Nat → Option Nat)

/-- `none` is a panic. -/
def refStep (x : Held) : RefOp → Option Held
  | .add slot anon replace =>
    (amapAdd x.s.am slot anon replace).map fun am => { x with s := { x.s with am := am } }
  | .unadd slot => (amapUnadd x.s.am slot).map fun am => { x with s := { x.s with am := am } }
  | .ref r shared => (amapRef x.s r.off r.len shared r.all true).map fun s => { s := s, refs := r :: x.refs }
  | .unref r =>
    match amapUnref x.s r.off r.len r.all true with
    | .kept s => some { s := s, refs := x.refs.erase r }
    | _ => none
  | .splitref r leftslots =>
    (amapSplitref x.s.am r.off leftslots true).map fun am =>
      { s := { x.s with am := am }
        refs := ⟨r.off, leftslots, false⟩ :: ⟨r.off + leftslots, r.len - leftslots, false⟩ :: x.refs.erase r }
  | .extend r slotadd slotsOk junk =>
    (amapExtend x.s r.off r.len slotadd true slotsOk junk).map fun (s, err) =>
      { s := s, refs := if err.isSome then x.refs else ⟨r.off, r.len + slotadd, false⟩ :: x.refs.erase r }
  | .copy r junkSlots junkBck junkAnon =>
    (amapCopy x.s r.off r.len junkSlots junkBck junkAnon).map fun (s, _) =>
      { s := s, refs := x.refs.erase r }

/-- What the map entries are and do: an entry refers to slots that are there, it gives up, splits
or copies a reference that it has, and it extends an amap that is its own. The last reference
ends the amap, and `amap_copy` then has nothing to copy. -/
def allowed (x : Held) : RefOp → Bool
  | .add slot _ replace => decide (slot < x.s.am.amNslot) && decide ((x.s.am.amAnon slot).isSome = replace)
  | .unadd slot => decide (slot < x.s.am.amNslot) && (x.s.am.amAnon slot).isSome
  | .ref r _ => decide (r.off + r.len ≤ x.s.am.amNslot)
  | .unref r => decide (r ∈ x.refs) && decide (2 ≤ x.refs.length)
  | .splitref r leftslots =>
    decide (r ∈ x.refs) && !r.all && decide (0 < leftslots) && decide (leftslots < r.len)
  | .extend r .. => decide (x.refs = [r]) && !r.all
  | .copy r .. => decide (r ∈ x.refs) && !r.all && decide (2 ≤ x.refs.length)

/-- No reference to a part of the amap is made while it has no array of counts. -/
def countedRef (x : Held) : RefOp → Bool
  | .ref r _ => !uncounted x.s.am r.len r.all
  | _ => true

/-! ## Counting -/

theorem count_cons (r : Ref) (refs : List Ref) (slot : Nat) :
    count (r :: refs) slot = count refs slot + if r.covers slot then 1 else 0 := by
  rw [count, count, List.countP_cons]
  split
  · rfl
  · rfl

theorem count_erase (h : r ∈ refs) (slot : Nat) :
    count refs slot = count (refs.erase r) slot + if r.covers slot then 1 else 0 := by
  rw [← count_cons, count, count, (List.perm_cons_erase h).countP_eq]

theorem count_nonneg (refs : List Ref) (slot : Nat) : 0 ≤ count refs slot := Int.natCast_nonneg _

theorem count_pos (h : r ∈ refs) (hcov : r.covers slot = true) : 0 < count refs slot :=
  Int.natCast_pos.mpr (List.countP_pos_iff.mpr ⟨r, h, hcov⟩)

/-! ## The invariant -/

structure RefInv (x : Held) : Prop where
  inv : SlotInv x.s.am
  ref : x.s.am.amRef = x.refs.length
  alive : 1 ≤ x.refs.length
  within : ∀ r ∈ x.refs, r.off + r.len ≤ x.s.am.amNslot
  kind : x.s.am.amPpref.isNull = true ∨ x.s.am.amPpref.inUse = true
  /-- Until there is an array, every reference is to all slots. -/
  whole : x.s.am.amPpref.isNull = true → ∀ r ∈ x.refs, ∀ slot < x.s.am.amNslot, r.covers slot = true
  counts : Counts x.s.am (count x.refs)

theorem Counts.congr {g' : Nat → Int} (h : Counts am g) (hg : ∀ i < am.amNslot, g' i = g i) : Counts am g' := by
  cases hp : am.amPpref with
  | null => exact counts_of_not_inUse (by rw [hp]; rfl)
  | none => exact counts_of_not_inUse (by rw [hp]; rfl)
  | array a => exact counts_array hp ((h.coded hp).congr (fun _ _ _ => rfl) fun i _ hi => hg i hi)

/-- A reference to all slots begins at the first and ends at the last. -/
theorem RefInv.whole_range (h : RefInv x) (hnull : x.s.am.amPpref.isNull = true) (hr : r ∈ x.refs)
    (hall : r.all = false) : r.off = 0 ∧ r.len = x.s.am.amNslot := by
  have hle := h.within r hr
  have hcov := h.whole hnull r hr
  by_cases hz : x.s.am.amNslot = 0
  · omega
  · have hfirst := hcov 0 (by omega)
    have hlast := hcov (x.s.am.amNslot - 1) (by omega)
    rw [Ref.covers, hall, Bool.false_or, Bool.and_eq_true, decide_eq_true_eq, decide_eq_true_eq] at hfirst hlast
    omega

theorem RefInv.not_uncounted (h : RefInv x) (hr : r ∈ x.refs) : uncounted x.s.am r.len r.all = false := by
  rw [uncounted]
  by_cases hnull : x.s.am.amPpref.isNull = true
  · cases hall : r.all with
    | true => rw [Bool.not_true, Bool.and_false, Bool.false_and]
    | false => rw [(h.whole_range hnull hr hall).2, decide_eq_false (fun hne => hne rfl), Bool.and_false]
  · rw [Bool.eq_false_iff.mpr hnull, Bool.false_and, Bool.false_and]

/-- In range of a reference, as `amap_pp_adjref` is told it. -/
theorem covers_counted (hslot : slot < am.amNslot) :
    r.covers slot = true ↔ (counted am r.off r.len r.all).1 ≤ slot
      ∧ slot < (counted am r.off r.len r.all).1 + (counted am r.off r.len r.all).2 := by
  rw [Ref.covers, counted]
  cases r.all with
  | true =>
    rw [if_pos rfl, Bool.true_or]
    exact ⟨fun _ => ⟨Nat.zero_le _, by omega⟩, fun _ => rfl⟩
  | false =>
    rw [if_neg Bool.false_ne_true, Bool.false_or, Bool.and_eq_true, decide_eq_true_eq, decide_eq_true_eq]

/-! ## One operation -/

/-- The anons that go are those of the slots that were referred to and no longer are. -/
def Dropped (x x' : Held) : Prop :=
  ∀ slot < x.s.am.amNslot, x'.s.am.amAnon slot
    = if 0 < count x.refs slot ∧ count x'.refs slot = 0 then none else x.s.am.amAnon slot

/-- References that come or go as the counts do. -/
theorem settle_refs {am₁ : VmAmap} {refs' : List Ref} {v : Int} (h : RefInv x)
    (ham : am₁ = { x.s.am with amRef := am₁.amRef, amShared := am₁.amShared })
    (hset : Settled am₁ s'.am
      (adjusted (count x.refs) (counted am₁ r.off r.len r.all).1
        ((counted am₁ r.off r.len r.all).1 + (counted am₁ r.off r.len r.all).2) v)
      (counted am₁ r.off r.len r.all).1 ((counted am₁ r.off r.len r.all).1 + (counted am₁ r.off r.len r.all).2))
    (hv : v ≠ 0) (href : am₁.amRef = refs'.length) (halive : 1 ≤ refs'.length)
    (hwithin : ∀ r' ∈ refs', r'.off + r'.len ≤ x.s.am.amNslot)
    (hwhole : x.s.am.amPpref.isNull = true → ∀ r' ∈ refs', ∀ slot < x.s.am.amNslot, r'.covers slot = true)
    (hcount : ∀ slot, count refs' slot = count x.refs slot + if r.covers slot then v else 0) :
    RefInv { s := s', refs := refs' } ∧ Dropped x { s := s', refs := refs' } := by
  have hns₁ : am₁.amNslot = x.s.am.amNslot := by rw [ham]
  have hpp₁ : am₁.amPpref = x.s.am.amPpref := by rw [ham]
  have han₁ : am₁.amAnon = x.s.am.amAnon := by rw [ham]
  have hns : s'.am.amNslot = x.s.am.amNslot := by rw [hset.eq, ← hns₁]
  have hadj : ∀ slot < x.s.am.amNslot,
      adjusted (count x.refs) (counted am₁ r.off r.len r.all).1
        ((counted am₁ r.off r.len r.all).1 + (counted am₁ r.off r.len r.all).2) v slot = count refs' slot := by
    intro slot hslot
    have hcov := covers_counted (r := r) (hns₁.symm ▸ hslot : slot < am₁.amNslot)
    rw [hcount, adjusted]
    by_cases hc : r.covers slot = true
    · rw [if_pos (hcov.mp hc), if_pos hc]
    · rw [if_neg fun hin => hc (hcov.mpr hin), if_neg hc, Int.add_zero]
  refine ⟨⟨hset.inv, ?_, halive, ?_, ?_, fun hnull => ?_, ?_⟩, fun slot hslot => ?_⟩
  · rw [hset.eq]
    exact href
  · rw [hns]
    exact hwithin
  · rw [hset.null, hset.use, hpp₁]
    exact h.kind
  · rw [hset.null, hpp₁] at hnull
    rw [hns]
    exact hwhole hnull
  · refine hset.counts.congr fun i hi => (hadj i ?_).symm
    exact hns ▸ hi
  · have hcov := covers_counted (r := r) (hns₁.symm ▸ hslot : slot < am₁.amNslot)
    have hc := hcount slot
    have hnn := count_nonneg x.refs slot
    rw [hset.anon, hadj slot hslot, han₁]
    by_cases hgone : 0 < count x.refs slot ∧ count refs' slot = 0
    · have hr : r.covers slot = true := by
        by_contra hr
        rw [if_neg hr] at hc
        omega
      have huse : x.s.am.amPpref.inUse = true := by
        refine h.kind.resolve_left fun hnull => ?_
        obtain ⟨r', hr'⟩ := List.exists_mem_of_length_pos halive
        have hpos := count_pos hr' (hwhole hnull r' hr' slot hslot)
        omega
      rw [if_pos hgone, if_pos ⟨hpp₁ ▸ huse, hcov.mp hr, hgone.2⟩]
    · rw [if_neg hgone, if_neg]
      rintro ⟨-, hin, hz⟩
      rw [if_pos (hcov.mpr hin)] at hc
      exact hgone ⟨by omega, hz⟩

theorem refStep_ref (shared : Bool) (h : RefInv x) (hle : r.off + r.len ≤ x.s.am.amNslot)
    (hcounted : uncounted x.s.am r.len r.all = false) :
    ∃ x', refStep x (.ref r shared) = some x' ∧ RefInv x' ∧ Dropped x x' := by
  have href := h.ref
  obtain ⟨s', hs', hset, -⟩ := ref_spec shared r.all true h.counts h.inv (by omega) hle
  generalize ham₁ : { x.s.am with amRef := x.s.am.amRef + 1, amShared := x.s.am.amShared || shared } = am₁ at hset
  have hun₁ : uncounted am₁ r.len r.all = false := by
    rw [← ham₁]
    exact hcounted
  have heq : am₁ = { x.s.am with amRef := am₁.amRef, amShared := am₁.amShared } := by rw [← ham₁]
  have href₁ : am₁.amRef = x.s.am.amRef + 1 := by rw [← ham₁]
  rw [established_eq hun₁, counts₀_eq hun₁] at hset
  refine ⟨{ s := s', refs := r :: x.refs }, ?_, settle_refs h heq hset (by decide) ?_ ?_ ?_ ?_ ?_⟩
  · rw [refStep, hs', Option.map_some]
  · rw [List.length_cons, href₁, href, Int.natCast_add]
    rfl
  · exact Nat.le_add_left _ _
  · intro r' hr'
    obtain rfl | hr' := List.mem_cons.mp hr'
    · exact hle
    · exact h.within r' hr'
  · intro hnull r' hr' slot hslot
    obtain rfl | hr' := List.mem_cons.mp hr'
    · rw [uncounted, hnull, Bool.true_and] at hcounted
      rw [Ref.covers]
      cases hall : r'.all with
      | true => rfl
      | false =>
        rw [hall, Bool.not_false, Bool.true_and, decide_eq_false_iff_not, Classical.not_not] at hcounted
        rw [Bool.false_or, Bool.and_eq_true, decide_eq_true_eq, decide_eq_true_eq]
        omega
    · exact h.whole hnull r' hr' slot hslot
  · exact fun slot => count_cons r x.refs slot

theorem refs_erase {v : Int} (hr : r ∈ refs) (hv : v = -1) (slot : Nat) :
    count (refs.erase r) slot = count refs slot + if r.covers slot then v else 0 := by
  rw [count_erase hr slot, hv]
  split
  · omega
  · omega

theorem refStep_unref (h : RefInv x) (hr : r ∈ x.refs) (hmore : 2 ≤ x.refs.length) :
    ∃ x', refStep x (.unref r) = some x' ∧ RefInv x' ∧ Dropped x x' := by
  have href := h.ref
  have hlen := List.length_erase_of_mem hr
  have hcase := unref_spec r.all true h.counts h.inv (by omega : 2 ≤ x.s.am.amRef) (h.within r hr)
  dsimp only at hcase
  obtain ⟨am₁, ham₁⟩ : ∃ am₁, unshare { x.s.am with amRef := x.s.am.amRef - 1 } = am₁ := ⟨_, rfl⟩
  have hshare : am₁ = { x.s.am with amRef := x.s.am.amRef - 1, amShared := am₁.amShared } := by
    rw [← ham₁]
    exact unshare_eq _
  have href₁ : am₁.amRef = x.s.am.amRef - 1 := by rw [hshare]
  have heq : am₁ = { x.s.am with amRef := am₁.amRef, amShared := am₁.amShared } := by
    rw [href₁]
    exact hshare
  have hun₁ : uncounted am₁ r.len r.all = false := by
    rw [heq]
    exact h.not_uncounted hr
  have hns : am₁.amNslot = x.s.am.amNslot := by rw [heq]
  have hrange := counted_le r.all (hns.symm ▸ h.within r hr : r.off + r.len ≤ am₁.amNslot)
  rw [ham₁, established_eq hun₁, counts₀_eq hun₁] at hcase
  obtain ⟨i, hlo, hhi, hneg, -⟩ | ⟨s', hs', hset⟩ := hcase
  · have hcov := (covers_counted (r := r) (Nat.lt_of_lt_of_le hhi hrange)).mpr ⟨hlo, hhi⟩
    have hpos := count_pos hr hcov
    omega
  · refine ⟨{ s := s', refs := x.refs.erase r }, ?_, settle_refs h heq hset (by decide) ?_ ?_ ?_ ?_ ?_⟩
    · rw [refStep, hs']
    · omega
    · omega
    · exact fun r' hr' => h.within r' (List.mem_of_mem_erase hr')
    · exact fun hnull r' hr' => h.whole hnull r' (List.mem_of_mem_erase hr')
    · exact refs_erase hr rfl

theorem refStep_copy {junkSlots junkBck : Nat → Nat} {junkAnon : Nat → Option Nat} (h : RefInv x)
    (hr : r ∈ x.refs) (hall : r.all = false) (hmore : 2 ≤ x.refs.length) :
    ∃ x', refStep x (.copy r junkSlots junkBck junkAnon) = some x' ∧ RefInv x' ∧ Dropped x x' := by
  have href := h.ref
  have hle := h.within r hr
  have hlen := List.length_erase_of_mem hr
  obtain ⟨i, hlo, hhi, hneg, -⟩ | ⟨s', new, shared, hs', hset⟩ :=
    copy_source junkSlots junkBck junkAnon h.counts h.inv hle
  · have hcov : r.covers i = true := by
      rw [Ref.covers, hall, Bool.false_or, Bool.and_eq_true, decide_eq_true_eq, decide_eq_true_eq]
      exact ⟨hlo, hhi⟩
    have hpos := count_pos hr hcov
    omega
  · generalize ham₁ : { x.s.am with amRef := x.s.am.amRef - 1, amShared := shared } = am₁ at hset
    have heq : am₁ = { x.s.am with amRef := am₁.amRef, amShared := am₁.amShared } := by rw [← ham₁]
    have href₁ : am₁.amRef = x.s.am.amRef - 1 := by rw [← ham₁]
    have hrange : counted am₁ r.off r.len r.all = (r.off, r.len) := by
      rw [counted, hall, if_neg Bool.false_ne_true]
    refine ⟨{ s := s', refs := x.refs.erase r }, ?_, settle_refs (v := -1) (r := r) h heq ?_ (by decide) ?_ ?_ ?_ ?_ ?_⟩
    · rw [refStep, hs', Option.map_some]
    · rw [hrange]
      exact hset
    · omega
    · omega
    · exact fun r' hr' => h.within r' (List.mem_of_mem_erase hr')
    · exact fun hnull r' hr' => h.whole hnull r' (List.mem_of_mem_erase hr')
    · exact refs_erase hr rfl

/-- The two halves of a reference cover what it covered. -/
theorem count_split {left : Nat} (hr : r ∈ refs) (hall : r.all = false) (hleft : left < r.len) (slot : Nat) :
    count (⟨r.off, left, false⟩ :: ⟨r.off + left, r.len - left, false⟩ :: refs.erase r) slot = count refs slot := by
  rw [count_cons, count_cons, count_erase hr slot]
  simp only [Ref.covers, hall, Bool.false_or, Bool.and_eq_true, decide_eq_true_eq]
  by_cases hin : r.off ≤ slot ∧ slot < r.off + r.len
  · rw [if_pos hin]
    by_cases hl : slot < r.off + left
    · rw [if_neg (by omega), if_pos (by omega), Int.add_zero]
    · rw [if_pos (by omega), if_neg (by omega), Int.add_zero]
  · rw [if_neg hin, if_neg (by omega), if_neg (by omega), Int.add_zero, Int.add_zero]

theorem dropped_of_count (hanon : ∀ slot < x.s.am.amNslot, x'.s.am.amAnon slot = x.s.am.amAnon slot)
    (hcount : ∀ slot < x.s.am.amNslot, count x.refs slot ≤ count x'.refs slot) : Dropped x x' := by
  intro slot hslot
  have hle := hcount slot hslot
  rw [if_neg (by omega)]
  exact hanon slot hslot

theorem refStep_splitref {leftslots : Nat} (h : RefInv x) (hr : r ∈ x.refs) (hall : r.all = false)
    (hpos : 0 < leftslots) (hleft : leftslots < r.len) :
    ∃ x', refStep x (.splitref r leftslots) = some x' ∧ RefInv x' ∧ Dropped x x' := by
  have href := h.ref
  have hle := h.within r hr
  have hlen := List.length_erase_of_mem hr
  have hlen' := List.length_pos_of_mem hr
  have hsplit := count_split hr hall hleft
  generalize ham₁ : (if x.s.am.amPpref.isNull then amapPpEstablish x.s.am true else x.s.am) = am₁
  have hspec : SlotInv am₁ ∧ Counts am₁ (count x.refs) ∧ am₁.amPpref.inUse = true
      ∧ am₁ = { x.s.am with amPpref := am₁.amPpref } := by
    by_cases hnull : x.s.am.amPpref.isNull = true
    · rw [if_pos hnull] at ham₁
      subst ham₁
      obtain ⟨hc, hinv⟩ := establish_counts h.inv (by omega : 0 ≤ x.s.am.amRef)
      -- every reference is to all slots, so each slot has as many as there are
      refine ⟨hinv, hc.congr fun i hi => ?_, rfl, rfl⟩
      rw [href, count, List.countP_eq_length.mpr fun r' hr' => h.whole hnull r' hr' i hi]
    · rw [if_neg hnull] at ham₁
      subst ham₁
      exact ⟨h.inv, h.counts, h.kind.resolve_left hnull, rfl⟩
  obtain ⟨hinv, hc, huse, heq⟩ := hspec
  have hns : am₁.amNslot = x.s.am.amNslot := by rw [heq]
  have href₁ : am₁.amRef = x.s.am.amRef := by rw [heq]
  have hanon : am₁.amAnon = x.s.am.amAnon := by rw [heq]
  have hnull₁ : am₁.amPpref.isNull = false := by
    obtain ⟨a, ha⟩ := exists_array huse
    rw [ha]
    rfl
  refine ⟨{ s := { x.s with am := { am₁ with amRef := am₁.amRef + 1 } },
            refs := ⟨r.off, leftslots, false⟩ :: ⟨r.off + leftslots, r.len - leftslots, false⟩ :: x.refs.erase r },
    ?_, ⟨hinv.congr rfl rfl rfl rfl rfl rfl, ?_, ?_, ?_, .inr huse, ?_, ?_⟩, ?_⟩
  · rw [refStep, amapSplitref, if_neg (by omega), if_neg (by omega), ham₁, Option.map_some]
  · change am₁.amRef + 1 = _
    rw [List.length_cons, List.length_cons]
    omega
  · exact Nat.le_add_left _ _
  · intro r' hr'
    rw [hns]
    obtain rfl | hr' := List.mem_cons.mp hr'
    · change r.off + leftslots ≤ _
      omega
    · obtain rfl | hr' := List.mem_cons.mp hr'
      · change r.off + leftslots + (r.len - leftslots) ≤ _
        omega
      · exact h.within r' (List.mem_of_mem_erase hr')
  · intro hnull
    rw [show am₁.amPpref.isNull = true from hnull] at hnull₁
    cases hnull₁
  · exact hc.congr fun i _ => hsplit i
  · exact dropped_of_count (fun slot _ => congrFun hanon slot) fun slot _ => Int.le_of_eq (hsplit slot).symm

theorem refStep_extend {slotadd : Nat} {slotsOk : Bool} {junk : Nat → Nat} (h : RefInv x) (hrefs : x.refs = [r])
    (hall : r.all = false) :
    ∃ x', refStep x (.extend r slotadd slotsOk junk) = some x' ∧ RefInv x' ∧ Dropped x x' := by
  have hr : r ∈ x.refs := by
    rw [hrefs]
    exact List.mem_singleton_self r
  have hle := h.within r hr
  obtain ⟨s', err, hs', hcase⟩ | ⟨s', hs', hext, huse⟩ := extend_spec slotadd true slotsOk junk h.counts h.inv hle
  · obtain rfl : s' = x.s := by
      obtain ⟨-, rfl⟩ | ⟨-, rfl | ⟨hfalse, -⟩⟩ := hcase
      · rfl
      · rfl
      · cases hfalse
    refine ⟨x, ?_, h, dropped_of_count (fun _ _ => rfl) fun _ _ => Int.le_refl _⟩
    rw [refStep, hs', Option.map_some]
    rfl
  · have herase : x.refs.erase r = [] := by
      rw [hrefs, List.erase_cons_head]
    have hns := hext.nslot
    have hone : ∀ r' : Ref, r'.all = false → ∀ slot,
        count [r'] slot = if r'.off ≤ slot ∧ slot < r'.off + r'.len then 1 else 0 := by
      intro r' hall' slot
      rw [count_cons, Ref.covers, hall', Bool.false_or]
      simp only [Bool.and_eq_true, decide_eq_true_eq]
      exact Int.zero_add _
    have hold := hone r hall
    have hnew := hone ⟨r.off, r.len + slotadd, false⟩ rfl
    dsimp only at hnew
    refine ⟨{ s := s', refs := [⟨r.off, r.len + slotadd, false⟩] }, ?_, ⟨hext.inv, ?_, le_rfl, ?_, ?_, ?_, ?_⟩,
      dropped_of_count hext.anon ?_⟩
    · rw [refStep, hs', Option.map_some, herase]
      rfl
    · rw [hext.ref, h.ref, hrefs]
      rfl
    · intro r' hr'
      rw [List.mem_singleton.mp hr', hns]
      change r.off + (r.len + slotadd) ≤ _
      omega
    · rw [hext.null, huse rfl]
      exact h.kind
    · intro hnull r' hr' slot hslot
      rw [List.mem_singleton.mp hr']
      rw [hext.null] at hnull
      obtain ⟨hoff, hlen⟩ := h.whole_range hnull hr hall
      rw [Ref.covers, Bool.false_or, Bool.and_eq_true, decide_eq_true_eq, decide_eq_true_eq]
      change slot < s'.am.amNslot at hslot
      change r.off ≤ slot ∧ slot < r.off + (r.len + slotadd)
      omega
    · refine hext.counts.congr fun i hi => ?_
      rw [grown, adjusted, hrefs, hold, hnew]
      by_cases hn : x.s.am.amNslot ≤ i
      · rw [if_pos hn, if_pos (by omega)]
      · rw [if_neg hn]
        by_cases hin : r.off + r.len ≤ i ∧ i < r.off + r.len + slotadd
        · rw [if_pos hin, if_pos (by omega), if_neg (by omega)]
          rfl
        · rw [if_neg hin]
          by_cases hwas : r.off ≤ i ∧ i < r.off + r.len
          · rw [if_pos hwas, if_pos (by omega)]
          · rw [if_neg hwas, if_neg (by omega)]
    · intro slot _
      rw [hrefs, hold, hnew]
      by_cases hwas : r.off ≤ slot ∧ slot < r.off + r.len
      · refine Int.le_of_eq ?_
        rw [if_pos hwas, if_pos (by omega)]
      · rw [if_neg hwas]
        split
        · decide
        · decide

theorem refStep_slot (h : RefInv x) (hsame : SameMap x.s.am am) (hinv : SlotInv am) :
    RefInv { x with s := { x.s with am := am } } := by
  have heq := hsame.eq
  refine ⟨hinv, ?_, h.alive, ?_, ?_, ?_, ?_⟩
  · rw [heq]
    exact h.ref
  · rw [heq]
    exact h.within
  · rw [heq]
    exact h.kind
  · rw [heq]
    exact h.whole
  · rw [heq]
    exact h.counts

/-- The operations that change what refers to the amap, and not an anon. -/
def RefOp.isRef : RefOp → Bool
  | .add .. => false
  | .unadd .. => false
  | _ => true

/-- No operation of the map entries panics. -/
theorem refStep_spec {op : RefOp} (h : RefInv x) (hallowed : allowed x op = true) (hcounted : countedRef x op = true) :
    ∃ x', refStep x op = some x' ∧ RefInv x' ∧ (op.isRef = true → Dropped x x') := by
  cases op with
  | add slot anon replace =>
    rw [allowed, Bool.and_eq_true, decide_eq_true_eq, decide_eq_true_eq] at hallowed
    obtain ⟨hslot, hsome⟩ := hallowed
    rw [refStep, amapAdd, if_neg (Nat.not_le.mpr hslot)]
    cases hanon : x.s.am.amAnon slot with
    | none =>
      obtain rfl : false = replace := (hanon ▸ hsome : Option.isSome none = replace)
      exact ⟨_, rfl, refStep_slot h ⟨rfl⟩ (addSlot_inv anon h.inv hslot hanon), nofun⟩
    | some old =>
      obtain rfl : true = replace := (hanon ▸ hsome : Option.isSome (some old) = replace)
      exact ⟨_, rfl, refStep_slot h ⟨rfl⟩ (replaceAnon_inv anon h.inv hslot (hanon ▸ rfl)), nofun⟩
  | unadd slot =>
    rw [allowed, Bool.and_eq_true, decide_eq_true_eq] at hallowed
    obtain ⟨hslot, hsome⟩ := hallowed
    rw [refStep, amapUnadd, if_neg (Nat.not_le.mpr hslot)]
    obtain ⟨old, hanon⟩ := Option.isSome_iff_exists.mp hsome
    rw [hanon]
    exact ⟨_, rfl, refStep_slot h (dropSlot_same _ slot).1 (dropSlot_inv h.inv hslot hsome), nofun⟩
  | ref r shared =>
    rw [countedRef, Bool.not_eq_true'] at hcounted
    obtain ⟨x', hx', hinv, hdrop⟩ := refStep_ref shared h (of_decide_eq_true hallowed) hcounted
    exact ⟨x', hx', hinv, fun _ => hdrop⟩
  | unref r =>
    rw [allowed, Bool.and_eq_true, decide_eq_true_eq, decide_eq_true_eq] at hallowed
    obtain ⟨x', hx', hinv, hdrop⟩ := refStep_unref h hallowed.1 hallowed.2
    exact ⟨x', hx', hinv, fun _ => hdrop⟩
  | splitref r leftslots =>
    rw [allowed, Bool.and_eq_true, Bool.and_eq_true, Bool.and_eq_true, decide_eq_true_eq, decide_eq_true_eq,
      decide_eq_true_eq, Bool.not_eq_true'] at hallowed
    obtain ⟨⟨⟨hr, hall⟩, hpos⟩, hleft⟩ := hallowed
    obtain ⟨x', hx', hinv, hdrop⟩ := refStep_splitref h hr hall hpos hleft
    exact ⟨x', hx', hinv, fun _ => hdrop⟩
  | extend r slotadd slotsOk junk =>
    rw [allowed, Bool.and_eq_true, decide_eq_true_eq, Bool.not_eq_true'] at hallowed
    obtain ⟨x', hx', hinv, hdrop⟩ := refStep_extend h hallowed.1 hallowed.2
    exact ⟨x', hx', hinv, fun _ => hdrop⟩
  | copy r junkSlots junkBck junkAnon =>
    rw [allowed, Bool.and_eq_true, Bool.and_eq_true, decide_eq_true_eq, decide_eq_true_eq,
      Bool.not_eq_true'] at hallowed
    obtain ⟨⟨hr, hall⟩, hmore⟩ := hallowed
    obtain ⟨x', hx', hinv, hdrop⟩ := refStep_copy h hr hall hmore
    exact ⟨x', hx', hinv, fun _ => hdrop⟩

/-! ## Runs -/

/-- An amap that `amap_alloc` or `amap_copy` made, with the entry that it was made for. -/
def firstHeld (am : VmAmap) (anRef : Nat → Int) : Held where
  s := { am := am, anRef := anRef }
  refs := [⟨0, am.amNslot, false⟩]

theorem firstHeld_inv (h : Fresh am) (anRef : Nat → Int) : RefInv (firstHeld am anRef) := by
  refine ⟨h.inv, h.ref, le_rfl, ?_, .inl ?_, fun _ r hr slot hslot => ?_, counts_of_not_inUse ?_⟩
  · intro r hr
    rw [List.mem_singleton.mp hr]
    exact Nat.le_of_eq (Nat.zero_add _)
  · change am.amPpref.isNull = true
    rw [h.null]
    rfl
  · rw [List.mem_singleton.mp hr, Ref.covers, Bool.false_or, Bool.and_eq_true, decide_eq_true_eq, decide_eq_true_eq]
    exact ⟨Nat.zero_le _, (Nat.zero_add am.amNslot).symm ▸ hslot⟩
  · change am.amPpref.inUse = false
    rw [h.null]
    rfl

/-- The array, once it is there, holds the number of references to each slot. -/
def RefsCounted (x : Held) : Prop :=
  ∀ a, x.s.am.amPpref = .array a → Coded a (count x.refs) 0 x.s.am.amNslot

/-- In a run in which no reference to a part of the amap is made while it does not count, the
counts are right, and an anon is dropped exactly when the last reference to its slot goes. -/
theorem ppref_counts_refs (hfresh : Fresh am) (anRef : Nat → Int)
    (hrun : Runs refStep (fun x op => allowed x op = true ∧ countedRef x op = true) (firstHeld am anRef) x) :
    RefsCounted x ∧ ∀ op, allowed x op = true → countedRef x op = true →
      ∃ x', refStep x op = some x' ∧ RefsCounted x' ∧ (op.isRef = true → Dropped x x') := by
  have hinv : RefInv x := by
    refine hrun.invariant (fun x op x' hok hstep h => ?_) (firstHeld_inv hfresh anRef)
    obtain ⟨x₁, hx₁, hinv₁, -⟩ := refStep_spec h hok.1 hok.2
    exact Option.some.inj (hx₁.symm.trans hstep) ▸ hinv₁
  refine ⟨fun a ha => hinv.counts.coded ha, fun op hallowed hcounted => ?_⟩
  obtain ⟨x', hx', hinv', hdrop⟩ := refStep_spec hinv hallowed hcounted
  exact ⟨x', hx', fun a ha => hinv'.counts.coded ha, hdrop⟩

/-- An entry of four slots, with an anon in the second, is clipped in the middle. -/
def clipped : Option Held :=
  Runs.exec refStep (fun x op => allowed x op && countedRef x op) [.add 1 7 false, .splitref ⟨0, 4, false⟩ 2]
    (firstHeld (amapAlloc 4 0 id id) fun _ => 1)

/-- When the first half goes, so does the anon. -/
theorem ppref_counts_refs_clip : ∃ x x', clipped = some x ∧ x.refs = [⟨0, 2, false⟩, ⟨2, 2, false⟩]
    ∧ x.s.am.amAnon 1 = some 7 ∧ refStep x (.unref ⟨0, 2, false⟩) = some x' ∧ RefsCounted x' ∧ Dropped x x' := by
  obtain ⟨x, hx⟩ : ∃ x, clipped = some x := ⟨_, rfl⟩
  have hrun : Runs refStep (fun x op => allowed x op = true ∧ countedRef x op = true)
      (firstHeld (amapAlloc 4 0 id id) fun _ => 1) x :=
    Runs.of_exec (fun _ _ h => Bool.and_eq_true_iff.mp h) _ hx
  have hfacts : x.refs = [⟨0, 2, false⟩, ⟨2, 2, false⟩] ∧ x.s.am.amAnon 1 = some 7
      ∧ allowed x (.unref ⟨0, 2, false⟩) = true := by
    obtain rfl := Option.some.inj hx
    exact ⟨rfl, rfl, rfl⟩
  obtain ⟨hrefs, hanon, hallowed⟩ := hfacts
  obtain ⟨-, hstep⟩ := ppref_counts_refs (alloc_fresh 4 0 id id) _ hrun
  obtain ⟨x', hx', hcounted, hdrop⟩ := hstep _ hallowed rfl
  exact ⟨x, x', hx, hrefs, hanon, hx', hcounted, hdrop rfl⟩

/-- A second entry refers to the first two of the four slots of an amap that has one entry: the
array has three references to them, and two to the others. -/
theorem partial_ref_overcounted : ∃ x a, Runs refStep (fun x op => allowed x op = true)
      (firstHeld (amapAlloc 4 0 id id) fun _ => 1) x
    ∧ x.refs = [⟨0, 2, false⟩, ⟨0, 4, false⟩] ∧ x.s.am.amPpref = .array a
    ∧ ppGetreflen a 0 = (3, 2) ∧ ppGetreflen a 2 = (2, 2) ∧ count x.refs 0 = 2 ∧ count x.refs 2 = 1
    ∧ ¬ RefsCounted x := by
  obtain ⟨x, hx⟩ : ∃ x, refStep (firstHeld (amapAlloc 4 0 id id) fun _ => 1) (.ref ⟨0, 2, false⟩ false) = some x := ⟨_, rfl⟩
  have hfacts : ∃ a, x.refs = [⟨0, 2, false⟩, ⟨0, 4, false⟩] ∧ x.s.am.amPpref = .array a ∧ x.s.am.amNslot = 4
      ∧ a 0 = -4 ∧ ppGetreflen a 0 = (3, 2) ∧ ppGetreflen a 2 = (2, 2) := by
    obtain rfl := Option.some.inj hx
    exact ⟨_, rfl, rfl, rfl, rfl, rfl, rfl⟩
  obtain ⟨a, hrefs, ha, hns, ha0, hget0, hget2⟩ := hfacts
  have hcount : count x.refs 0 = 2 ∧ count x.refs 2 = 1 := by
    rw [hrefs]
    exact ⟨rfl, rfl⟩
  refine ⟨x, a, .single ⟨_, rfl, hx⟩, hrefs, ha, hget0, hget2, hcount.1, hcount.2, fun hcounted => ?_⟩
  obtain ⟨len, -, hchunk, -⟩ := (hcounted a ha).head (hns ▸ by decide)
  rw [IsChunk, hcount.1, ha0] at hchunk
  split at hchunk <;> omega

end Obsd.Amap
