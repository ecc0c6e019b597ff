import Mathlib
import Obsd.Bitmap

/-!
# Sliding windows over a history of numbers

Numbers of `k` bits are accepted, each at most once, and a bitmap of `w`
bits remembers which of the last few have been: bit `d` stands for the
number `d` below the largest one. `Recorded` says that the bitmap tells the
truth about the history inside the window. A number is added to the history
in one of three ways, and there is a lemma for each: the window slides up to
it and part of the old bitmap stays in view, the window jumps past everything
it knew, or the number is inside the window and only its bit is set.
-/

namespace Obsd.SlidingWindow

variable {w k : Nat}

/-- The bitmap agrees with the history `acc` on the `wnd` numbers up to
`last`, and nothing above `last` has been accepted. -/
structure Recorded (acc : List (BitVec k)) (last : BitVec k) (wnd : Nat) (bitmap : BitVec w) :
    Prop where
  top : ∀ n ∈ acc, n ≤ last
  bits : ∀ d < wnd, bitmap.getLsbD d = true ↔ last - BitVec.ofNat k d ∈ acc

variable {acc : List (BitVec k)} {last n : BitVec k} {wnd : Nat} {bitmap : BitVec w}

theorem toNat_sub_ofNat_of_le {d : Nat} (hd : d ≤ last.toNat) :
    (last - BitVec.ofNat k d).toNat = last.toNat - d := by
  have hmod : (BitVec.ofNat k d).toNat = d := by
    rw [BitVec.toNat_ofNat, Nat.mod_eq_of_lt (by omega)]
  rw [BitVec.toNat_sub_of_le (BitVec.le_def.mpr (by omega)), hmod]

/-- Two numbers the same distance below the same one are one number. -/
theorem sub_ofNat_inj {d e : Nat} (hd : d < 2 ^ k) (he : e < 2 ^ k) :
    last - BitVec.ofNat k d = last - BitVec.ofNat k e ↔ d = e := by
  refine ⟨fun h => ?_, fun h => h ▸ rfl⟩
  have hde : BitVec.ofNat k d = BitVec.ofNat k e := by grind
  have := congrArg BitVec.toNat hde
  rwa [BitVec.toNat_ofNat, BitVec.toNat_ofNat, Nat.mod_eq_of_lt hd, Nat.mod_eq_of_lt he] at this

/-- A number at most `last` is found `last - n` below it. -/
theorem sub_ofNat_toNat (h : n ≤ last) : last - BitVec.ofNat k (last.toNat - n.toNat) = n := by
  apply BitVec.eq_of_toNat_eq
  rw [toNat_sub_ofNat_of_le (by omega)]
  have := BitVec.le_def.mp h
  omega

/-- Before anything is accepted, any empty bitmap tells the truth. -/
theorem Recorded.nil : Recorded ([] : List (BitVec k)) last wnd (0 : BitVec w) where
  top := fun n hn => absurd hn List.not_mem_nil
  bits := fun d _ => by simp

/-- What is above the window's top, or in the window with its bit clear, is new. -/
theorem Recorded.fresh (h : Recorded acc last wnd bitmap) (hw : last.toNat - n.toNat < wnd)
    (hbit : n ≤ last → bitmap.getLsbD (last.toNat - n.toNat) = false) : n ∉ acc := by
  intro hn
  have hle := h.top n hn
  have hb := (h.bits _ hw).mpr (by rwa [sub_ofNat_toNat hle])
  rw [hbit hle] at hb
  cases hb

theorem Recorded.top_cons (h : Recorded acc last wnd bitmap) (hlt : last < n) :
    ∀ m ∈ n :: acc, m ≤ n := by
  intro m hm
  rcases List.mem_cons.mp hm with rfl | hm
  · exact BitVec.le_refl _
  · exact BitVec.le_def.mpr (Nat.le_trans (BitVec.le_def.mp (h.top m hm))
      (Nat.le_of_lt (BitVec.lt_def.mp hlt)))

/-- Strictly between the old top and the new one nothing was accepted. -/
theorem Recorded.not_mem_between (h : Recorded acc last wnd bitmap) {d : Nat} (hd : d < n.toNat)
    (hlt : last.toNat < n.toNat - d) : n - BitVec.ofNat k d ∉ acc := by
  intro hm
  have hle := BitVec.le_def.mp (h.top _ hm)
  rw [toNat_sub_ofNat_of_le (by omega)] at hle
  omega

theorem sub_ofNat_ne_self {d : Nat} (h0 : 0 < d) (hd : d < 2 ^ k) : n - BitVec.ofNat k d ≠ n := by
  intro h
  have h' : n - BitVec.ofNat k d = n - BitVec.ofNat k 0 := by simpa using h
  have := (sub_ofNat_inj hd (by omega)).mp h'
  omega

/-- The window slides up to `n` and keeps what stays in view. -/
theorem Recorded.slide (h : Recorded acc last wnd bitmap) (hww : wnd ≤ w) (hwk : wnd ≤ 2 ^ k)
    (hlt : last < n) (hdiff : n.toNat - last.toNat < wnd) :
    Recorded (n :: acc) n wnd (bitmap <<< (n.toNat - last.toNat) ||| 1) := by
  have hlt' := BitVec.lt_def.mp hlt
  refine ⟨h.top_cons hlt, fun d hd => ?_⟩
  rw [BitVec.getLsbD_or, BitVec.getLsbD_shiftLeft, List.mem_cons]
  rcases Nat.eq_zero_or_pos d with rfl | hpos
  · simp
    omega
  have hone : (1 : BitVec w).getLsbD d = false := by
    simp; omega
  have hne := sub_ofNat_ne_self (n := n) hpos (by omega)
  by_cases hlow : d < n.toNat - last.toNat
  · have hnot := h.not_mem_between (n := n) (d := d) (by omega) (by omega)
    simp [hlow, hne, hnot, Nat.ne_of_gt hpos]
  · have hback : n - BitVec.ofNat k d = last - BitVec.ofNat k (d - (n.toNat - last.toNat)) := by
      have hn : n = last + BitVec.ofNat k (n.toNat - last.toNat) := by
        apply BitVec.eq_of_toNat_eq
        have := n.isLt
        rw [BitVec.toNat_add, BitVec.toNat_ofNat, Nat.mod_eq_of_lt (a := n.toNat - last.toNat)
          (by omega), Nat.mod_eq_of_lt (by omega)]
        omega
      have hd' : BitVec.ofNat k d = BitVec.ofNat k (n.toNat - last.toNat) +
          BitVec.ofNat k (d - (n.toNat - last.toNat)) := by
        rw [← BitVec.ofNat_add]
        congr 1; omega
      grind
    rw [hback] at hne ⊢
    simp only [hlow, hone, hne, ← h.bits (d - (n.toNat - last.toNat)) (by omega)]
    simp
    omega

/-- The window jumps to `n`: nothing it knew is in view. -/
theorem Recorded.jump (h : Recorded acc last wnd bitmap) (hww : wnd ≤ w) (hwk : wnd ≤ 2 ^ k)
    (hlt : last < n) (hdiff : wnd ≤ n.toNat - last.toNat) :
    Recorded (n :: acc) n wnd (1 : BitVec w) := by
  refine ⟨h.top_cons hlt, fun d hd => ?_⟩
  rcases Nat.eq_zero_or_pos d with rfl | hpos
  · simp; omega
  have hne := sub_ofNat_ne_self (n := n) hpos (by omega)
  have hnot := h.not_mem_between (n := n) (d := d) (by omega) (by omega)
  simp [hne, hnot]
  omega

/-- A number inside the window is added by setting its bit. -/
theorem Recorded.mark (h : Recorded acc last wnd bitmap) (hww : wnd ≤ w) (hwk : wnd ≤ 2 ^ k)
    (hle : n ≤ last) (hdiff : last.toNat - n.toNat < wnd) :
    Recorded (n :: acc) last wnd (bitmap ||| 1#w <<< (last.toNat - n.toNat)) := by
  refine ⟨fun m hm => ?_, fun d hd => ?_⟩
  · rcases List.mem_cons.mp hm with rfl | hm
    · exact hle
    · exact h.top m hm
  rw [BitVec.getLsbD_or, Bitmap.getLsbD_one_shiftLeft (by omega), List.mem_cons]
  have hn : last - BitVec.ofNat k d = n ↔ d = last.toNat - n.toNat := by
    conv_lhs => rw [← sub_ofNat_toNat hle]
    exact sub_ofNat_inj (by omega) (by omega)
  simp only [Bool.or_eq_true, decide_eq_true_eq, h.bits d hd, hn]
  exact or_comm

end Obsd.SlidingWindow
