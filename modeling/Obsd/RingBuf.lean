import Mathlib.Data.Nat.ModEq
import Mathlib.Data.List.TakeDrop

/-!
# Ring buffers

`n` slots of which `c` are in use, from slot `f` on and around the end.
`window` lists what they hold, in order. Pieces of it are windows again,
and a stretch that does not go around the end is read slot by slot.
-/

namespace Obsd.RingBuf

variable {α : Type*} {n f c d : Nat} {get get' : Nat → α}

/-- What the `c` slots from `f` on hold. -/
def window (get : Nat → α) (n f c : Nat) : List α := (List.range c).map fun i => get ((f + i) % n)

@[simp] theorem length_window : (window get n f c).length = c := by simp [window]

@[simp] theorem window_zero : window get n f 0 = [] := rfl

theorem window_congr (h : ∀ i < c, get ((f + i) % n) = get' ((f + i) % n)) :
    window get n f c = window get' n f c :=
  List.map_congr_left fun i hi => h i (List.mem_range.mp hi)

/-- A window is cut anywhere into two. -/
theorem window_add (get : Nat → α) (n f c d : Nat) :
    window get n f (c + d) = window get n f c ++ window get n ((f + c) % n) d := by
  unfold window
  rw [List.range_add, List.map_append, List.map_map]
  congr 1
  refine List.map_congr_left fun i _ => ?_
  rw [Function.comp_apply, Nat.mod_add_mod, Nat.add_assoc]

theorem take_window (h : c ≤ d) : (window get n f d).take c = window get n f c := by
  obtain ⟨e, rfl⟩ := Nat.exists_eq_add_of_le h
  rw [window_add, List.take_left' length_window]

theorem drop_window (h : c ≤ d) : (window get n f d).drop c = window get n ((f + c) % n) (d - c) := by
  obtain ⟨e, rfl⟩ := Nat.exists_eq_add_of_le h
  rw [window_add, List.drop_left' length_window, Nat.add_sub_cancel_left]

theorem window_one (get : Nat → α) (h : f < n) : window get n f 1 = [get f] := by
  rw [window, List.range_one, List.map_singleton, Nat.add_zero, Nat.mod_eq_of_lt h]

theorem window_cons (get : Nat → α) (h : f < n) (hc : c ≠ 0) :
    window get n f c = get f :: window get n ((f + 1) % n) (c - 1) := by
  have hsplit := window_add get n f 1 (c - 1)
  rw [window_one get h, Nat.add_comm 1, Nat.sub_add_cancel (Nat.pos_of_ne_zero hc)] at hsplit
  exact hsplit

theorem window_snoc (get : Nat → α) (h : 0 < n) (f c : Nat) :
    window get n f (c + 1) = window get n f c ++ [get ((f + c) % n)] := by
  rw [window_add, window_one get (Nat.mod_lt _ h)]

/-- Up to the end of the buffer the slots are next to each other. -/
theorem window_straight (get : Nat → α) (h : f + c ≤ n) :
    window get n f c = (List.range c).map fun i => get (f + i) := by
  refine List.map_congr_left fun i hi => ?_
  rw [Nat.mod_eq_of_lt]
  have := List.mem_range.mp hi
  omega

/-- The slot after a stretch that ends at the end is the first. -/
theorem wrap_eq_mod (h : f + c ≤ n) : (if f + c = n then 0 else f + c) = (f + c) % n := by
  split
  · rename_i he
    rw [he, Nat.mod_self]
  · exact (Nat.mod_eq_of_lt (by omega)).symm

theorem slot_inj {i j : Nat} (hi : i < n) (hj : j < n) (h : (f + i) % n = (f + j) % n) : i = j := by
  have h' : i % n = j % n := Nat.ModEq.add_left_cancel' f h
  rwa [Nat.mod_eq_of_lt hi, Nat.mod_eq_of_lt hj] at h'

/-- A slot is reached by going around at most once. -/
theorem slot_eq (hf : f < n) (hc : c ≤ n) : (f + c) % n = if f + c < n then f + c else f + c - n := by
  split
  · rename_i h
    exact Nat.mod_eq_of_lt h
  · rename_i h
    rw [Nat.mod_eq_sub_mod (by omega), Nat.mod_eq_of_lt (by omega)]

/-- Setting one slot leaves the others. -/
theorem update_slot (get : Nat → α) {i j : Nat} (hi : i < n) (hj : j < n) (a : α) :
    Function.update get ((f + j) % n) a ((f + i) % n) = if i = j then a else get ((f + i) % n) := by
  by_cases hij : i = j
  · rw [if_pos hij, hij, Function.update_self]
  · rw [if_neg hij, Function.update_of_ne fun h => hij (slot_inj hi hj h)]

/-! ## Filling slots -/

/-- The slots from `o` on hold `xs`. -/
def store (get : Nat → α) (o : Nat) (xs : List α) : Nat → α := fun a =>
  if o ≤ a then xs.getD (a - o) (get a) else get a

theorem store_of_outside {xs : List α} {o a : Nat} (h : a < o ∨ o + xs.length ≤ a) :
    store get o xs a = get a := by
  unfold store
  split
  · rw [List.getD_eq_getElem?_getD, List.getElem?_eq_none (by omega), Option.getD_none]
  · rfl

theorem store_of_inside {xs : List α} {o i : Nat} (h : i < xs.length) :
    store get o xs (o + i) = xs[i] := by
  rw [store, if_pos (Nat.le_add_right o i), Nat.add_sub_cancel_left,
    List.getD_eq_getElem?_getD, List.getElem?_eq_getElem h, Option.getD_some]

end Obsd.RingBuf
