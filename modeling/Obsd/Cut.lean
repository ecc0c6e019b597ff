import Mathlib.Data.List.Basic

/-!
# Lists cut in two

Code that walks a list and edits it where it stands holds its place as a
*cut*: what it has passed, nearest first, and what is ahead. `Cut R P`
says of a cut that the list as a whole is in order, each element related
by `R` to every later one, and that every element meets `P`. The lemmas
are the edits such code makes.
-/

namespace Obsd

variable {α : Type*} {R : α → α → Prop} {P : α → Prop}

/-- The list `before.reverse ++ after` is in order and all its elements meet `P`. -/
structure Cut (R : α → α → Prop) (P : α → Prop) (before after : List α) : Prop where
  apart : (before.reverse ++ after).Pairwise R
  each : ∀ a ∈ before.reverse ++ after, P a

theorem forall_mem_cut {p : α → Prop} {before after : List α} :
    (∀ a ∈ before.reverse ++ after, p a) ↔ (∀ a ∈ before, p a) ∧ ∀ a ∈ after, p a := by
  simp only [List.mem_append, List.mem_reverse, or_imp, forall_and]

namespace Cut

variable {a a' : α} {before after : List α}

theorem apart_iff :
    (before.reverse ++ after).Pairwise R ↔
      before.Pairwise (fun a b => R b a) ∧ after.Pairwise R
        ∧ ∀ a ∈ before, ∀ b ∈ after, R a b := by
  simp only [List.pairwise_append, List.pairwise_reverse, List.mem_reverse]

theorem after_apart (h : Cut R P before after) : after.Pairwise R := (apart_iff.mp h.apart).2.1

theorem cross (h : Cut R P before after) : ∀ a ∈ before, ∀ b ∈ after, R a b :=
  (apart_iff.mp h.apart).2.2

theorem before_each (h : Cut R P before after) : ∀ a ∈ before, P a := (forall_mem_cut.mp h.each).1

theorem after_each (h : Cut R P before after) : ∀ a ∈ after, P a := (forall_mem_cut.mp h.each).2

/-- The nearest element before the cut is the last one before it. -/
theorem before_last (h : Cut R P (a :: before) after) : ∀ b ∈ before, R b a :=
  (List.pairwise_cons.mp (apart_iff.mp h.apart).1).1

/-- The nearest element behind the cut is the first one behind it. -/
theorem after_first (h : Cut R P before (a :: after)) : ∀ b ∈ after, R a b :=
  (List.pairwise_cons.mp h.after_apart).1

theorem snoc : Cut R P (a :: before) after ↔ Cut R P before (a :: after) := by
  have : (a :: before).reverse ++ after = before.reverse ++ a :: after := by simp
  constructor <;> rintro ⟨ha, hw⟩ <;> exact ⟨by simpa [this] using ha, by simpa [this] using hw⟩

/-- Put one more element into the cut. -/
theorem insert (h : Cut R P before after) (hnew : P a) (hb : ∀ b ∈ before, R b a)
    (ha : ∀ b ∈ after, R a b) : Cut R P (a :: before) after := by
  obtain ⟨h1, h2, h3⟩ := apart_iff.mp h.apart
  refine ⟨apart_iff.mpr ⟨List.pairwise_cons.mpr ⟨hb, h1⟩, h2, ?_⟩,
    forall_mem_cut.mpr ⟨?_, h.after_each⟩⟩
  · intro b hm c hc
    rcases List.mem_cons.mp hm with rfl | hm
    · exact ha c hc
    · exact h3 b hm c hc
  · intro b hb
    rcases List.mem_cons.mp hb with rfl | hb
    · exact hnew
    · exact h.before_each b hb

/-- Drop the element before the cut. -/
theorem tail (h : Cut R P (a :: before) after) : Cut R P before after := by
  obtain ⟨h1, h2, h3⟩ := apart_iff.mp h.apart
  exact ⟨apart_iff.mpr ⟨(List.pairwise_cons.mp h1).2, h2,
      fun b hm => h3 b (List.mem_cons_of_mem _ hm)⟩,
    forall_mem_cut.mpr ⟨fun b hb => h.before_each b (List.mem_cons_of_mem _ hb), h.after_each⟩⟩

/-- Drop the element behind the cut. -/
theorem drop (h : Cut R P before (a :: after)) : Cut R P before after := (snoc.mpr h).tail

/-- Replace the element behind the cut by one that is no nearer to the others. -/
theorem replace (h : Cut R P before (a :: after)) (hnew : P a') (hb : ∀ b, R b a → R b a')
    (ha : ∀ b, R a b → R a' b) : Cut R P before (a' :: after) :=
  snoc.mp (h.drop.insert hnew (fun b hm => hb b (h.cross b hm a (by simp)))
    fun b hm => ha b (h.after_first b hm))

/-- A cut with nothing before it. -/
theorem join (h : Cut R P before after) : Cut R P [] (before.reverse ++ after) :=
  ⟨by simpa using h.apart, by simpa using h.each⟩

/-- The same list, cut elsewhere. -/
theorem move {before' after' : List α} (h : Cut R P before after)
    (heq : before'.reverse ++ after' = before.reverse ++ after) : Cut R P before' after' :=
  ⟨heq ▸ h.apart, heq ▸ h.each⟩

theorem mono {Q : α → Prop} (h : Cut R P before after) (hPQ : ∀ a, P a → Q a) :
    Cut R Q before after :=
  ⟨h.apart, fun a ha => hPQ a (h.each a ha)⟩

/-- Put one more element at the end of the list. -/
theorem append {l : List α} (h : Cut R P [] l) (hnew : P a) (hl : ∀ b ∈ l, R b a) :
    Cut R P [] (l ++ [a]) := by
  have hend : Cut R P l.reverse [] := h.move (by simp)
  exact (hend.insert hnew (by simpa using hl) (by simp)).join.move (by simp)

end Cut

end Obsd
