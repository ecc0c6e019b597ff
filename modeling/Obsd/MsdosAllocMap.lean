import Obsd.MsdosAlloc
import Obsd.MsdosFatFree

/-!
# Searching the bitmap

The bitmap and the counter stand for a set of free clusters (`Tracks`). A
search reads words of the bitmap, finds runs of free clusters only, and
finds one unless there is none.
-/

namespace Obsd.Fat

variable {v : Volume} {F : Finset Nat} {s s' : St}

/-! ## The free clusters -/

/-- The bitmap has a clear bit for every cluster in `F` and no other, and
the counter is their number. -/
structure Tracks (v : Volume) (F : Finset Nat) (s : St) : Prop where
  range : ∀ cn ∈ F, v.InRange cn
  bits : ∀ cn < 32 * (v.maxcluster / 32 + 1), Bitmap.bit s.inuse cn = false ↔ cn ∈ F
  count : s.freecount = BitVec.ofNat 32 F.card

theorem inRange_lt {cn : Nat} (h : v.InRange cn) : cn < 32 * (v.maxcluster / 32 + 1) := by
  have hle := h.2
  omega

/-- A cluster is taken. -/
theorem Tracks.alloc {cn : Nat} (h : Tracks v F s) (hcn : cn ∈ F) :
    Tracks v (F.erase cn) (usemapAlloc cn s) where
  range := fun x hx => h.range x (Finset.mem_of_mem_erase hx)
  bits := by
    intro x hx
    show Bitmap.bit (Bitmap.set s.inuse cn) x = false ↔ _
    rw [Bitmap.bit_set (by decide), Finset.mem_erase, ← h.bits x hx]
    by_cases hxc : x = cn <;> simp [hxc]
  count := by
    show s.freecount - 1 = _
    rw [h.count, ← Finset.card_erase_add_one hcn, BitVec.ofNat_add]
    exact BitVec.add_sub_cancel _ _

/-- A cluster is given back. -/
theorem Tracks.free {cn : Nat} (h : Tracks v F s) (hin : v.InRange cn) (hcn : cn ∉ F) :
    Tracks v (insert cn F) (usemapFree cn s) where
  range := by
    intro x hx
    obtain rfl | hx := Finset.mem_insert.mp hx
    · exact hin
    · exact h.range x hx
  bits := by
    intro x hx
    show Bitmap.bit (Bitmap.clear s.inuse cn) x = false ↔ _
    rw [Bitmap.bit_clear (by decide), Finset.mem_insert, ← h.bits x hx]
    by_cases hxc : x = cn <;> simp [hxc]
  count := by
    show s.freecount + 1 = _
    rw [Finset.card_insert_of_notMem hcn, h.count, BitVec.ofNat_add]
    rfl

/-! ## Words that are read -/

/-- Only words of the bitmap have been read from `s` to `s'`. -/
structure Reads (v : Volume) (s s' : St) : Prop where
  same : s' = { s with words := s'.words }
  words : ∀ w ∈ s'.words, w ∈ s.words ∨ w ≤ v.maxcluster / 32

theorem Reads.refl (v : Volume) (s : St) : Reads v s s := ⟨rfl, fun _ hw => .inl hw⟩

theorem Reads.trans {s'' : St} (h : Reads v s s') (h' : Reads v s' s'') : Reads v s s'' where
  same := by rw [h'.same, h.same]
  words := fun w hw => (h'.words w hw).elim (h.words w) .inr

theorem Reads.touch {idx : Nat} (h : idx ≤ v.maxcluster / 32) (s : St) :
    Reads v s (touch idx s) where
  same := rfl
  words := by
    intro w hw
    obtain rfl | hw := List.mem_cons.mp hw
    · exact .inr h
    · exact .inl hw

theorem Reads.disk (h : Reads v s s') : s'.disk = s.disk := by rw [h.same]

theorem Tracks.reads (h : Tracks v F s) (hr : Reads v s s') : Tracks v F s' := by
  rw [hr.same]
  exact ⟨h.range, h.bits, h.count⟩

/-! ## chainlength -/

/-- The clusters from `start` on are free, `len` of them. -/
def Run (F : Finset Nat) (start len : Nat) : Prop := ∀ i < len, start + i ∈ F

theorem Run.mono {start len len' : Nat} (h : Run F start len) (hle : len' ≤ len) :
    Run F start len' := fun i hi => h i (Nat.lt_of_lt_of_le hi hle)

/-- A bit of a word. -/
theorem Tracks.word (h : Tracks v F s) (idx b : Nat) (hidx : idx ≤ v.maxcluster / 32) (hb : b < 32)
    (hbit : (s.inuse idx).getLsbD b = false) : 32 * idx + b ∈ F := by
  refine (h.bits _ (by omega)).mp ?_
  rwa [Bitmap.bit_mul_add _ hb]

/-- A run that ends with the word `idx` goes on in the words after it. -/
theorem lengthLoop_spec (count n : Nat) {idx start len : Nat} (h : Tracks v F s)
    (hidx : idx + n ≤ v.maxcluster / 32) (hend : start + len = 32 * (idx + 1))
    (hrun : Run F start len) :
    ∃ s' len', lengthLoop count n idx len s = (s', len') ∧ Reads v s s' ∧ len ≤ len'
      ∧ Run F start len' := by
  induction n generalizing idx len s with
  | zero => exact ⟨s, len, rfl, .refl v s, le_rfl, hrun⟩
  | succ n ih =>
    rw [lengthLoop]
    by_cases hcount : count ≤ len
    · rw [if_pos hcount]
      exact ⟨s, len, rfl, .refl v s, le_rfl, hrun⟩
    rw [if_neg hcount]
    have hread : Reads v s (touch (idx + 1) s) := .touch (by omega) s
    by_cases hmap : (touch (idx + 1) s).inuse (idx + 1) = 0
    · have hrun' : Run F start (len + 32) := by
        intro i hi
        by_cases hlt : i < len
        · exact hrun i hlt
        · have hfree := h.word (idx + 1) (i - len) (by omega) (by omega) (by
            have hword : s.inuse (idx + 1) = 0 := hmap
            rw [hword]
            exact BitVec.getLsbD_zero)
          have heq : 32 * (idx + 1) + (i - len) = start + i := by omega
          rwa [heq] at hfree
      obtain ⟨s', len', hloop, hreads, hle, hall⟩ :=
        @ih (touch (idx + 1) s) (idx + 1) (len + 32) (h.reads hread) (by omega) (by omega) hrun'
      simp only [hmap, ne_eq, not_true_eq_false, if_false]
      exact ⟨s', len', hloop, hread.trans hreads, by omega, hall⟩
    · simp only [ne_eq, hmap, not_false_eq_true, if_true]
      obtain ⟨b, hb, hffs, -, hbefore⟩ := Bitmap.ffs_of_ne_zero hmap
      refine ⟨_, _, rfl, hread, Nat.le_add_right _ _, ?_⟩
      intro i hi
      by_cases hlt : i < len
      · exact hrun i hlt
      · have hfree := h.word (idx + 1) (i - len) (by omega) (by omega)
          (hbefore _ (by omega))
        have heq : 32 * (idx + 1) + (i - len) = start + i := by omega
        rwa [heq] at hfree

/-- chainlength finds free clusters, and one at least if there is one at
`start`. -/
theorem chainlength_spec (h : Tracks v F s) (start count : Nat)
    (hstart : start / 32 ≤ v.maxcluster / 32) :
    ∃ s' len, chainlength v start count s = (s', len) ∧ Reads v s s' ∧ len ≤ count
      ∧ Run F start len ∧ (start ∈ F → 0 < count → 0 < len) := by
  have hmod := Nat.mod_lt start (show 0 < 32 by decide)
  have hsplit := Nat.div_add_mod start 32
  have hread : Reads v s (touch (start / 32) s) := .touch hstart s
  rw [chainlength]
  by_cases hmap : (touch (start / 32) s).inuse (start / 32)
      &&& ~~~(1#32 <<< (start % 32) - 1#32) = 0
  · -- The rest of the first word is free.
    have hclear : ∀ b < 32, start % 32 ≤ b → 32 * (start / 32) + b ∈ F := by
      intro b hb hle
      refine h.word _ b hstart hb ?_
      have hbit := congrArg (fun m => m.getLsbD b) hmap
      rw [Bitmap.getLsbD_and_above _ hmod, decide_eq_true hle, Bool.and_true] at hbit
      exact hbit.trans BitVec.getLsbD_zero
    have hrun : Run F start (32 - start % 32) := by
      intro i hi
      have hfree := hclear (start % 32 + i) (by omega) (by omega)
      rwa [← Nat.add_assoc, hsplit] at hfree
    simp only [hmap, ne_eq, not_true_eq_false, if_false]
    by_cases hcount : count ≤ 32 - start % 32
    · rw [if_pos hcount]
      exact ⟨_, _, rfl, hread, le_rfl, hrun.mono hcount, fun _ hpos => hpos⟩
    · rw [if_neg hcount]
      obtain ⟨s', len', hloop, hreads, hle, hall⟩ := lengthLoop_spec count
        (v.maxcluster / 32 - start / 32) (h.reads hread) (Nat.add_sub_cancel' hstart).le
        (by omega) hrun
      simp only [hloop]
      refine ⟨s', _, rfl, hread.trans hreads, min_le_right _ _, hall.mono (min_le_left _ _), ?_⟩
      intro _ hpos
      exact lt_min (by omega) hpos
  · simp only [ne_eq, hmap, not_false_eq_true, if_true]
    obtain ⟨b, hb, hffs, hset, hbefore⟩ := Bitmap.ffs_of_ne_zero hmap
    rw [Bitmap.getLsbD_and_above _ hmod, Bool.and_eq_true, decide_eq_true_eq] at hset
    refine ⟨_, _, rfl, hread, min_le_right _ _, ?_, ?_⟩
    · intro i hi
      have hbit := hbefore (start % 32 + i) (by omega)
      rw [Bitmap.getLsbD_and_above _ hmod, decide_eq_true (by omega), Bool.and_true] at hbit
      have hfree := h.word _ (start % 32 + i) hstart (by omega) hbit
      rwa [← Nat.add_assoc, hsplit] at hfree
    · intro hfree hpos
      refine lt_min ?_ hpos
      -- The bit of `start` itself is clear.
      have hne : b ≠ start % 32 := by
        intro hb'
        have hclear := (h.bits start (by omega)).mpr hfree
        have hbit : (s.inuse (start / 32)).getLsbD b = true := hset.1
        rw [hb'] at hbit
        exact absurd (hclear.symm.trans hbit) (by decide)
      omega

/-! ## The search -/

/-- What a search gives: a run that is long enough, or the longest one
found so far, which is none only if there is no free cluster from `cn` up
to `bound`. -/
def SearchOk (F : Finset Nat) (count bound cn foundl : Nat) : Search → Prop
  | .hit c => Run F c count
  | .best c l => Run F c l ∧ l ≤ count ∧ foundl ≤ l ∧ (l = 0 → ∀ x ∈ F, cn ≤ x → bound ≤ x)

theorem search_spec (turns : Nat) {count bound cn foundcn foundl : Nat} (h : Tracks v F s)
    (hcount : 0 < count) (hbound : bound ≤ v.maxcluster + 1) (hturns : bound ≤ cn + turns)
    (hfound : Run F foundcn foundl) (hle : foundl ≤ count) :
    ∃ s' res, search v count bound turns cn foundcn foundl s = (s', res) ∧ Reads v s s'
      ∧ SearchOk F count bound cn foundl res := by
  induction turns generalizing cn foundcn foundl s with
  | zero =>
    exact ⟨s, _, rfl, .refl v s, hfound, hle, le_rfl, fun _ x _ hx => by omega⟩
  | succ turns ih =>
    rw [search]
    by_cases hend : bound ≤ cn
    · rw [if_pos hend]
      exact ⟨s, _, rfl, .refl v s, hfound, hle, le_rfl, fun _ x _ hx => by omega⟩
    rw [if_neg hend]
    have hidx : cn / 32 ≤ v.maxcluster / 32 := by omega
    have hmod := Nat.mod_lt cn (show 0 < 32 by decide)
    have hread : Reads v s (touch (cn / 32) s) := .touch hidx s
    have h' := h.reads hread
    by_cases hmap : (touch (cn / 32) s).inuse (cn / 32) ||| (1#32 <<< (cn % 32) - 1#32)
        = BitVec.allOnes 32
    · simp only [hmap, ne_eq, not_true_eq_false, if_false]
      obtain ⟨s', res, hrun, hreads, hok⟩ := @ih (touch (cn / 32) s) (cn + (32 - cn % 32)) foundcn
        foundl h' (by omega) hfound hle
      refine ⟨s', res, hrun, hread.trans hreads, ?_⟩
      match res, hok with
      | .hit c, hok => exact hok
      | .best c l, ⟨hrun, hcnt, hmore, hnone⟩ =>
        refine ⟨hrun, hcnt, hmore, fun hl x hx hxc => ?_⟩
        by_cases hfar : cn + (32 - cn % 32) ≤ x
        · exact hnone hl x hx hfar
        -- The cluster would have a clear bit in the word.
        have hbit := congrArg (fun m => m.getLsbD (x % 32)) hmap
        have hxmod := Nat.mod_lt x (show 0 < 32 by decide)
        have hxidx : x / 32 = cn / 32 := by omega
        rw [Bitmap.getLsbD_or_below _ hmod, decide_eq_false (by omega), Bool.or_false,
          BitVec.getLsbD_allOnes, decide_eq_true hxmod, ← hxidx] at hbit
        have hclear := (h.bits x (by omega)).mpr hx
        exact absurd (hclear.symm.trans hbit) (by decide)
    · simp only [ne_eq, hmap, not_false_eq_true, if_true]
      obtain ⟨b, hb, hffs, hclear, -⟩ := Bitmap.ffs_not hmap
      rw [Bitmap.getLsbD_or_below _ hmod, Bool.or_eq_false_iff, decide_eq_false_iff_not] at hclear
      have hfree : 32 * (cn / 32) + b ∈ F := h.word _ b hidx hb hclear.1
      rw [hffs, Nat.add_sub_cancel, Nat.mul_comm (cn / 32) 32]
      obtain ⟨s₁, l, hlen, hreads₁, hl, hall, hpos⟩ := chainlength_spec h' (32 * (cn / 32) + b)
        count (by omega)
      have hlpos := hpos hfree hcount
      have hreads := hread.trans hreads₁
      simp only [hlen]
      by_cases hhit : count ≤ l
      · rw [if_pos hhit]
        exact ⟨s₁, _, rfl, hreads, hall.mono hhit⟩
      rw [if_neg hhit]
      -- A free cluster has been found, and what is found is only replaced by more.
      have hgo : ∀ foundcn' foundl', Run F foundcn' foundl' → foundl' ≤ count → foundl ≤ foundl' →
          0 < foundl' → ∃ s' res, search v count bound turns (32 * (cn / 32) + b + l + 1) foundcn'
            foundl' s₁ = (s', res) ∧ Reads v s s' ∧ SearchOk F count bound cn foundl res := by
        intro foundcn' foundl' hrun' hle' hmore hsome
        obtain ⟨s', res, hrun, hreads', hok⟩ := @ih s₁ (32 * (cn / 32) + b + l + 1) foundcn' foundl'
          (h'.reads hreads₁) (by omega) hrun' hle'
        refine ⟨s', res, hrun, hreads.trans hreads', ?_⟩
        match res, hok with
        | .hit c, hok => exact hok
        | .best c l', ⟨hrun, hcnt, hmore', _⟩ =>
          exact ⟨hrun, hcnt, by omega, fun hl' => by omega⟩
      by_cases hmore : foundl < l
      · rw [if_pos hmore]
        exact hgo _ _ hall hl (by omega) hlpos
      · rw [if_neg hmore]
        exact hgo _ _ hfound hle le_rfl (by omega)

end Obsd.Fat
