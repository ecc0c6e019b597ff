import Mathlib

/-!
# Search trees under a comparison

The trees of `sys/tree.h` are searched with a comparison that returns an
integer. It need not be an order; where it is one on the keys at hand
(`OrderOn`), a tree whose elements are in order finds each of them
(`find_self`) and stays in order when one is put in (`insert_inOrder`) or
taken out. How a tree is balanced does not matter: rotations leave the list
of the elements as it is, and all that is said is about this list.
-/

namespace Obsd.SearchTree

inductive Tree (α : Type*) where
  | leaf
  | node (left : Tree α) (x : α) (right : Tree α)
deriving Repr

variable {α κ : Type*} {cmp : κ → κ → Int} {key : α → κ} {K : κ → Prop} {t : Tree α} {x y : α}
  {k : κ}

namespace Tree

/-- The elements from left to right. -/
def toList : Tree α → List α
  | leaf => []
  | node left x right => left.toList ++ x :: right.toList

/-- `RB_FIND` -/
def find (cmp : κ → κ → Int) (key : α → κ) (k : κ) : Tree α → Option α
  | leaf => none
  | node left x right =>
    if cmp k (key x) < 0 then find cmp key k left
    else if cmp k (key x) > 0 then find cmp key k right
    else some x

/-- `RB_INSERT` without the rotations; an element that compares equal stays. -/
def insert (cmp : κ → κ → Int) (key : α → κ) (x : α) : Tree α → Tree α
  | leaf => node leaf x leaf
  | node left y right =>
    if cmp (key x) (key y) < 0 then node (insert cmp key x left) y right
    else if cmp (key x) (key y) > 0 then node left y (insert cmp key x right)
    else node left y right

end Tree

/-- The comparison orders the keys that satisfy `K`. -/
structure OrderOn (cmp : κ → κ → Int) (K : κ → Prop) : Prop where
  opp : ∀ a b, K a → K b → (cmp a b < 0 ↔ 0 < cmp b a)
  trans : ∀ a b c, K a → K b → K c → cmp a b < 0 → cmp b c < 0 → cmp a c < 0

/-- Each element is below the ones to its right. -/
def InOrder (cmp : κ → κ → Int) (key : α → κ) (l : List α) : Prop :=
  l.Pairwise fun a b => cmp (key a) (key b) < 0

theorem OrderOn.refl (h : OrderOn cmp K) (hk : K k) : cmp k k = 0 := by
  have := h.opp k k hk hk
  omega

/-- What is found is in the tree and compares equal. -/
theorem find_some (h : t.find cmp key k = some x) : x ∈ t.toList ∧ cmp k (key x) = 0 := by
  induction t with
  | leaf => exact absurd h (by simp [Tree.find])
  | node left y right ihl ihr =>
    simp only [Tree.find] at h
    simp only [Tree.toList, List.mem_append, List.mem_cons]
    split at h
    · exact ⟨.inl (ihl h).1, (ihl h).2⟩
    · split at h
      · exact ⟨.inr (.inr (ihr h).1), (ihr h).2⟩
      · obtain rfl : y = x := Option.some.inj h
        exact ⟨.inr (.inl rfl), by omega⟩

section Order

variable (horder : OrderOn cmp K) (hkeys : ∀ y ∈ t.toList, K (key y))
  (hsorted : InOrder cmp key t.toList)
include horder hkeys hsorted

/-- The search goes to the side that has the element. -/
theorem find_ne_none (hk : K k) (hx : x ∈ t.toList) (heq : cmp k (key x) = 0) :
    t.find cmp key k ≠ none := by
  induction t with
  | leaf => exact absurd hx List.not_mem_nil
  | node left y right ihl ihr =>
    obtain ⟨hl, hyr, hly⟩ := List.pairwise_append.mp hsorted
    obtain ⟨hy, hr⟩ := List.pairwise_cons.mp hyr
    have hKl : ∀ z ∈ left.toList, K (key z) := fun z hz => hkeys z (List.mem_append_left _ hz)
    have hKr : ∀ z ∈ right.toList, K (key z) := fun z hz =>
      hkeys z (List.mem_append_right _ (List.mem_cons_of_mem _ hz))
    have hKy : K (key y) := hkeys y (List.mem_append_right _ List.mem_cons_self)
    simp only [Tree.find]
    by_cases hlt : cmp k (key y) < 0
    · rw [if_pos hlt]
      rcases List.mem_append.mp hx with hx | hx
      · exact ihl hKl hl hx
      · rcases List.mem_cons.mp hx with rfl | hx
        · omega
        · -- to the right of `y` everything is above `k`
          have := horder.trans k (key y) (key x) hk hKy (hKr x hx) hlt (hy x hx)
          omega
    · rw [if_neg hlt]
      by_cases hgt : cmp k (key y) > 0
      · rw [if_pos hgt]
        rcases List.mem_append.mp hx with hx | hx
        · have hyk := (horder.opp (key y) k hKy hk).mpr hgt
          have hxk := horder.trans (key x) (key y) k (hKl x hx) hKy hk
            (hly x hx y List.mem_cons_self) hyk
          have := (horder.opp (key x) k (hKl x hx) hk).mp hxk
          omega
        · rcases List.mem_cons.mp hx with rfl | hx
          · omega
          · exact ihr hKr hr hx
      · rw [if_neg hgt]
        simp

theorem eq_of_equal (hx : x ∈ t.toList) (hy : y ∈ t.toList) (heq : cmp (key x) (key y) = 0) :
    x = y := by
  by_contra hne
  have hsymm : Std.Symm fun a b => cmp (key a) (key b) < 0 ∨ cmp (key b) (key a) < 0 :=
    ⟨fun _ _ => Or.symm⟩
  have hpair : t.toList.Pairwise fun a b => cmp (key a) (key b) < 0 ∨ cmp (key b) (key a) < 0 :=
    hsorted.imp Or.inl
  rcases hpair.forall hx hy hne with h | h
  · omega
  · have := (horder.opp (key y) (key x) (hkeys y hy) (hkeys x hx)).mp h
    omega

/-- Each element is found under its own key. -/
theorem find_self (hx : x ∈ t.toList) : t.find cmp key (key x) = some x := by
  rcases hfind : t.find cmp key (key x) with _ | y
  · exact absurd hfind (find_ne_none horder hkeys hsorted (hkeys x hx) hx
      (horder.refl (hkeys x hx)))
  · obtain ⟨hy, heq⟩ := find_some hfind
    rw [eq_of_equal horder hkeys hsorted hx hy heq]

/-- A new element comes between those below and those above it. -/
theorem insert_toList (hx : K (key x)) (hnew : t.find cmp key (key x) = none) :
    ∃ L R, t.toList = L ++ R ∧ (t.insert cmp key x).toList = L ++ x :: R ∧
      (∀ y ∈ L, cmp (key y) (key x) < 0) ∧ ∀ y ∈ R, cmp (key x) (key y) < 0 := by
  induction t with
  | leaf => exact ⟨[], [], rfl, rfl, by simp, by simp⟩
  | node left y right ihl ihr =>
    obtain ⟨hl, hyr, hly⟩ := List.pairwise_append.mp hsorted
    obtain ⟨hy, hr⟩ := List.pairwise_cons.mp hyr
    have hKl : ∀ z ∈ left.toList, K (key z) := fun z hz => hkeys z (List.mem_append_left _ hz)
    have hKr : ∀ z ∈ right.toList, K (key z) := fun z hz =>
      hkeys z (List.mem_append_right _ (List.mem_cons_of_mem _ hz))
    have hKy : K (key y) := hkeys y (List.mem_append_right _ List.mem_cons_self)
    simp only [Tree.find] at hnew
    simp only [Tree.insert, Tree.toList]
    by_cases hlt : cmp (key x) (key y) < 0
    · rw [if_pos hlt] at hnew ⊢
      obtain ⟨L, R, heq, hins, hL, hR⟩ := ihl hKl hl hnew
      refine ⟨L, R ++ y :: right.toList, by rw [heq, List.append_assoc], ?_, hL, fun z hz => ?_⟩
      · rw [Tree.toList, hins, List.append_assoc, List.cons_append]
      · rcases List.mem_append.mp hz with hz | hz
        · exact hR z hz
        · rcases List.mem_cons.mp hz with rfl | hz
          · exact hlt
          · exact horder.trans _ _ _ hx hKy (hKr z hz) hlt (hy z hz)
    · rw [if_neg hlt] at hnew ⊢
      by_cases hgt : cmp (key x) (key y) > 0
      · rw [if_pos hgt] at hnew ⊢
        obtain ⟨L, R, heq, hins, hL, hR⟩ := ihr hKr hr hnew
        have hyx := (horder.opp (key y) (key x) hKy hx).mpr hgt
        refine ⟨left.toList ++ y :: L, R, by rw [heq, List.append_assoc, List.cons_append], ?_,
          fun z hz => ?_, hR⟩
        · rw [Tree.toList, hins, List.append_assoc, List.cons_append]
        · rcases List.mem_append.mp hz with hz | hz
          · exact horder.trans _ _ _ (hKl z hz) hKy hx (hly z hz y List.mem_cons_self) hyx
          · rcases List.mem_cons.mp hz with rfl | hz
            · exact hyx
            · exact hL z hz
      · rw [if_neg hgt] at hnew
        exact absurd hnew (by simp)

theorem insert_inOrder (hx : K (key x)) (hnew : t.find cmp key (key x) = none) :
    InOrder cmp key (t.insert cmp key x).toList := by
  obtain ⟨L, R, heq, hins, hL, hR⟩ := insert_toList horder hkeys hsorted hx hnew
  rw [heq] at hsorted
  obtain ⟨hl, hr, hlr⟩ := List.pairwise_append.mp hsorted
  rw [hins]
  refine List.pairwise_append.mpr ⟨hl, List.pairwise_cons.mpr ⟨hR, hr⟩, fun a ha b hb => ?_⟩
  rcases List.mem_cons.mp hb with rfl | hb
  · exact hL a ha
  · exact hlr a ha b hb

end Order

end Obsd.SearchTree
