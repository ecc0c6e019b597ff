import Mathlib.Data.List.Nodup

/-!
# Circular queues

Elements that carry their own links can be on one queue at a time, and can
be taken off it without knowing which one it is. A family of such queues is
a list for each head; `Once` says that every element is on at most one of
them, at most once, and each operation is described by the elements it
leaves on each queue.
-/

namespace Obsd.Circq

variable {κ ι : Type*}

/-- The elements of each queue, first to last. -/
abbrev Queues (κ ι : Type*) := κ → List ι

section
variable [DecidableEq κ]

/-- Put an element at the end of a queue. -/
def insert (q : Queues κ ι) (i : ι) (k : κ) : Queues κ ι := fun k' => if k' = k then q k' ++ [i] else q k'

/-- Move all elements of one queue to the end of another. -/
def append (q : Queues κ ι) (dst src : κ) : Queues κ ι := fun k =>
  if k = src then [] else if k = dst then q dst ++ q src else q k

theorem mem_insert {q : Queues κ ι} {i j : ι} {k k' : κ} :
    j ∈ insert q i k k' ↔ j ∈ q k' ∨ (j = i ∧ k' = k) := by
  unfold insert
  split_ifs with hk <;> simp [hk]

theorem mem_append {q : Queues κ ι} {dst src : κ} (hne : dst ≠ src) {i : ι} {k : κ} :
    i ∈ append q dst src k ↔ k ≠ src ∧ (i ∈ q k ∨ (k = dst ∧ i ∈ q src)) := by
  unfold append
  split_ifs with hsrc hdst
  · simp [hsrc]
  · simp [hdst, hne]
  · simp [hsrc, hdst]

end

/-- Take an element off the queue it is on. -/
def remove [DecidableEq ι] (q : Queues κ ι) (i : ι) : Queues κ ι := fun k => (q k).erase i

structure Once (q : Queues κ ι) : Prop where
  nodup : ∀ k, (q k).Nodup
  unique : ∀ {i k k'}, i ∈ q k → i ∈ q k' → k = k'

theorem once_empty : Once fun _ : κ => ([] : List ι) := ⟨fun _ => .nil, nofun⟩

section
variable {q : Queues κ ι} (h : Once q)
include h

theorem mem_remove [DecidableEq ι] {i j : ι} {k : κ} : j ∈ remove q i k ↔ j ≠ i ∧ j ∈ q k :=
  (h.nodup k).mem_erase_iff

theorem Once.remove [DecidableEq ι] (i : ι) : Once (remove q i) where
  nodup := fun k => (h.nodup k).erase i
  unique := fun hk hk' => h.unique ((mem_remove h).mp hk).2 ((mem_remove h).mp hk').2

variable [DecidableEq κ]

theorem Once.insert {i : ι} (habs : ∀ k, i ∉ q k) (k : κ) : Once (insert q i k) where
  nodup := by
    intro k'
    unfold Circq.insert
    split_ifs
    · exact (h.nodup k').append (List.nodup_singleton i) (by simpa using habs k')
    · exact h.nodup k'
  unique := by
    intro j k1 k2 h1 h2
    rcases mem_insert.mp h1 with hj1 | ⟨hj1, hk1⟩
    · rcases mem_insert.mp h2 with hj2 | ⟨rfl, -⟩
      · exact h.unique hj1 hj2
      · exact absurd hj1 (habs k1)
    · rcases mem_insert.mp h2 with hj2 | ⟨-, hk2⟩
      · exact absurd (hj1 ▸ hj2) (habs k2)
      · rw [hk1, hk2]

theorem Once.append {dst src : κ} (hne : dst ≠ src) : Once (append q dst src) where
  nodup := by
    intro k
    unfold Circq.append
    split_ifs
    · exact .nil
    · exact (h.nodup dst).append (h.nodup src) fun i hd hs => hne (h.unique hd hs)
    · exact h.nodup k
  unique := by
    intro i k1 k2 h1 h2
    obtain ⟨hk1, h1⟩ := (mem_append hne).mp h1
    obtain ⟨hk2, h2⟩ := (mem_append hne).mp h2
    rcases h1 with h1 | ⟨hd1, h1⟩
    · rcases h2 with h2 | ⟨-, h2⟩
      · exact h.unique h1 h2
      · exact absurd (h.unique h1 h2) hk1
    · rcases h2 with h2 | ⟨hd2, -⟩
      · exact absurd (h.unique h2 h1) hk2
      · rw [hd1, hd2]

end

end Obsd.Circq
