import Mathlib.Data.List.Nodup
import Mathlib.Data.List.Perm.Basic

/-!
# Association lists, and lists kept without holes

A table kept as a list of pairs with distinct keys: what a lookup finds
after one value is replaced, one pair is taken out, or all values are
changed and some pairs dropped. And the other way such tables are stored: an
array in which an element is taken out by moving the last one into its
place, which as a multiset is just the removal.
-/

namespace Obsd.AssocList

variable {α β : Type*} [DecidableEq α]

/-- The keys are distinct. -/
def Keyed (l : List (α × β)) : Prop := (l.map Prod.fst).Nodup

theorem keyed_cons {k : α} {b : β} {l : List (α × β)} :
    Keyed ((k, b) :: l) ↔ l.lookup k = none ∧ Keyed l := by
  rw [Keyed, List.map_cons, List.nodup_cons, Keyed]
  refine and_congr_left fun _ => ?_
  rw [List.lookup_eq_none_iff, List.mem_map]
  constructor
  · intro h p hp
    rw [bne_iff_ne]
    exact fun he => h ⟨p, hp, he.symm⟩
  · rintro h ⟨p, hp, he⟩
    exact (bne_iff_ne.mp (h p hp)) he.symm

theorem lookup_cons_ne {k k' : α} {b : β} {l : List (α × β)} (h : k' ≠ k) :
    ((k, b) :: l).lookup k' = l.lookup k' := by
  rw [List.lookup_cons, beq_false_of_ne h]

theorem mem_iff_lookup {l : List (α × β)} (h : Keyed l) {k : α} {b : β} :
    (k, b) ∈ l ↔ l.lookup k = some b := by
  induction l with
  | nil => simp
  | cons x l ih =>
      obtain ⟨k', b'⟩ := x
      obtain ⟨hnone, hl⟩ := keyed_cons.mp h
      rw [List.mem_cons, ih hl]
      by_cases hk : k = k'
      · subst hk
        rw [List.lookup_cons_self, hnone]
        simp [eq_comm]
      · rw [lookup_cons_ne hk]
        simp [hk]

/-- Replace the value of a key. -/
def put (l : List (α × β)) (k : α) (b : β) : List (α × β) :=
  l.map fun x => if x.1 = k then (k, b) else x

theorem fst_put (l : List (α × β)) (k : α) (b : β) : (put l k b).map Prod.fst = l.map Prod.fst := by
  rw [put, List.map_map]
  refine List.map_congr_left fun x _ => ?_
  by_cases hx : x.1 = k <;> simp [hx]

theorem keyed_put {l : List (α × β)} (h : Keyed l) (k : α) (b : β) : Keyed (put l k b) := by
  rw [Keyed, fst_put]
  exact h

theorem lookup_put (l : List (α × β)) (k : α) (b : β) (k' : α) :
    (put l k b).lookup k' = if k' = k then (l.lookup k).map fun _ => b else l.lookup k' := by
  induction l with
  | nil => simp [put]
  | cons x l ih =>
      obtain ⟨j, c⟩ := x
      have hcons : put ((j, c) :: l) k b = (if j = k then (k, b) else (j, c)) :: put l k b := rfl
      rw [hcons]
      by_cases hj : j = k
      · subst hj
        rw [if_pos rfl]
        by_cases hk : k' = j
        · subst hk
          simp
        · rw [lookup_cons_ne hk, ih, if_neg hk, if_neg hk, lookup_cons_ne hk]
      · rw [if_neg hj]
        by_cases hk : k' = j
        · subst hk
          rw [if_neg hj]
          simp
        · rw [lookup_cons_ne hk, ih, lookup_cons_ne hk, lookup_cons_ne (fun h => hj h.symm)]

/-- Take out the pair of a key. -/
def remove (l : List (α × β)) (k : α) : List (α × β) := l.eraseP fun x => x.1 = k

theorem keyed_remove {l : List (α × β)} (h : Keyed l) (k : α) : Keyed (remove l k) :=
  List.Nodup.sublist (List.Sublist.map _ (List.eraseP_sublist)) h

theorem lookup_remove {l : List (α × β)} (h : Keyed l) (k k' : α) :
    (remove l k).lookup k' = if k' = k then none else l.lookup k' := by
  induction l with
  | nil => simp [remove]
  | cons x l ih =>
      obtain ⟨j, c⟩ := x
      obtain ⟨hnone, hl⟩ := keyed_cons.mp h
      by_cases hj : j = k
      · subst hj
        have hrem : remove ((j, c) :: l) j = l := by simp [remove]
        rw [hrem]
        by_cases hk : k' = j
        · subst hk
          rw [hnone, if_pos rfl]
        · rw [if_neg hk, lookup_cons_ne hk]
      · have hrem : remove ((j, c) :: l) k = (j, c) :: remove l k := by simp [remove, hj]
        rw [hrem]
        by_cases hk : k' = j
        · subst hk
          rw [if_neg hj]
          simp
        · rw [lookup_cons_ne hk, ih hl, lookup_cons_ne hk]

theorem length_remove {l : List (α × β)} {k : α} {b : β} (h : l.lookup k = some b) :
    (remove l k).length = l.length - 1 := by
  obtain ⟨l₁, l₂, rfl, -⟩ := List.lookup_eq_some_iff.mp h
  exact List.length_eraseP_of_mem (a := (k, b)) (by simp) (by simp)

section Update

variable {γ : Type*} (f : β → γ) (q : γ → Bool)

/-- Change every value and keep the pairs whose new value passes. -/
def update (l : List (α × β)) : List (α × γ) :=
  (l.map fun x => (x.1, f x.2)).filter fun x => q x.2

omit [DecidableEq α] in
theorem update_cons (k : α) (b : β) (l : List (α × β)) :
    update f q ((k, b) :: l) = if q (f b) then (k, f b) :: update f q l else update f q l := by
  rw [update, List.map_cons, List.filter_cons]
  rfl

theorem lookup_update_of_none {l : List (α × β)} {k : α} (h : l.lookup k = none) :
    (update f q l).lookup k = none := by
  rw [List.lookup_eq_none_iff] at h ⊢
  intro p hp
  obtain ⟨x, hx, rfl⟩ := List.mem_map.mp (List.mem_of_mem_filter hp)
  exact h x hx

theorem lookup_update {l : List (α × β)} (h : Keyed l) (k : α) :
    (update f q l).lookup k = ((l.lookup k).map f).filter q := by
  induction l with
  | nil => simp [update]
  | cons x l ih =>
      obtain ⟨j, c⟩ := x
      obtain ⟨hnone, hl⟩ := keyed_cons.mp h
      rw [update_cons]
      by_cases hk : k = j
      · subst hk
        split <;> rename_i hq
        · simp [Option.filter, hq]
        · simp [Option.filter, hq, lookup_update_of_none f q hnone]
      · rw [lookup_cons_ne hk, ← ih hl]
        split
        · rw [lookup_cons_ne hk]
        · rfl

omit [DecidableEq α] in
theorem keyed_update {l : List (α × β)} (h : Keyed l) : Keyed (update f q l) := by
  have hmap : (l.map fun x => (x.1, f x.2)).map Prod.fst = l.map Prod.fst := by
    rw [List.map_map]
    rfl
  refine List.Nodup.sublist (List.Sublist.map _ List.filter_sublist) ?_
  rw [hmap]
  exact h

end Update

/-! ## Arrays without holes -/

/-- Moving the last element into the place of one that goes is its removal. -/
theorem set_dropLast_perm {l : List β} {i : Nat} {last : β} (hi : i < l.length)
    (hlast : l.getLast? = some last) : (l.set i last).dropLast.Perm (l.eraseIdx i) := by
  obtain ⟨init, rfl⟩ : ∃ init, l = init ++ [last] := List.getLast?_eq_some_iff.mp hlast
  rw [List.length_append, List.length_singleton] at hi
  by_cases h : i < init.length
  · rw [List.set_append_left _ _ h, List.dropLast_concat, List.eraseIdx_append_of_lt_length h]
    exact (List.set_perm_cons_eraseIdx h last).trans (List.perm_append_singleton _ _).symm
  · obtain rfl : i = init.length := by omega
    simp [List.eraseIdx_append_of_length_le]

end Obsd.AssocList
