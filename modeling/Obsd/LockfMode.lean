import Obsd.LockfQueue

/-!
# What a request changes

`lf_setlock` gives the offsets of its range the type asked for,
`lf_clearlock` unlocks them, and no other offset and no other owner is
affected (`place_mode`, `lfClearlock_mode`).
-/

namespace Obsd.Lf

/-- The same owner, range and type. -/
structure SameRange (lock lock' : Lockf) : Prop where
  lfId : lock'.lfId = lock.lfId
  lfType : lock'.lfType = lock.lfType
  lfStart : lock'.lfStart = lock.lfStart
  lfEnd : lock'.lfEnd = lock.lfEnd

section Same

variable {lock lock' b : Lockf} (h : SameRange lock lock')

include h

theorem SameRange.valid (hl : lock.Valid) : lock'.Valid :=
  ⟨⟨by rw [h.lfStart]; exact hl.start, by rw [h.lfStart, h.lfEnd]; exact hl.end_⟩,
    by rw [h.lfType]; exact hl.type⟩

theorem SameRange.covers {x : Int} : lock'.Covers x ↔ lock.Covers x := by
  unfold Lockf.Covers
  rw [h.lfStart, h.lfEnd]

theorem SameRange.before_left : Before b lock' ↔ Before b lock := by
  unfold Before
  rw [h.lfStart]

theorem SameRange.before_right : Before lock' b ↔ Before lock b := by
  unfold Before
  rw [h.lfEnd]

end Same

/-! ## Clearing -/

/-- The request cuts no remainder off that would begin at a wrapped offset. -/
def ClearOk (lock : Lockf) (l : List Lockf) : Prop := ∀ b ∈ l, Hit lock b → NoWrap lock b

instance (lock : Lockf) (l : List Lockf) : Decidable (ClearOk lock l) :=
  inferInstanceAs (Decidable (∀ _ ∈ _, _))

theorem lfClearlock_walked {lock : Lockf} {F : File} (hv : ∀ b ∈ F.locks, b.Valid)
    (hs : Sorted F.locks) :
    ∃ tail S' freed',
      lfClearlock lock F = { locks := tail, sleepers := S', next := F.next + 1, freed := freed' }
      ∧ Walked lock F.next lfWakelock F.locks F.sleepers F.freed tail S' freed' := by
  obtain ⟨tail, S', freed', heq, hw⟩ := clearLoop_carves [] F.sleepers F.freed
    (Nat.lt_succ_self _) hv hs
  refine ⟨tail, S', freed', ?_, hw⟩
  unfold lfClearlock
  rw [heq]
  rfl

/-! ## Setting -/

section Put

variable {lock : Lockf} {fresh : Nat} {l : List Lockf} {S : List Sleeper} {freed : List Nat}
  {r : Placed}

/-- The other locks of the owner lie before and behind one with the same range. -/
theorem apart_equal {b : Lockf} {before after : List Lockf} (hs : Sorted (before ++ b :: after))
    (hid : b.lfId = lock.lfId) (hx : ovCase b lock = .equal) :
    (∀ c ∈ before, c.lfId = lock.lfId → Before c lock)
      ∧ ∀ c ∈ after, c.lfId = lock.lfId → Before lock c := by
  obtain ⟨-, hs2, hs3⟩ := List.pairwise_append.mp hs
  have hsame := ovCase_equal hx
  constructor
  · intro c hc hcid
    have h := hs3 c hc b (by simp) (hcid.trans hid.symm)
    exact ⟨h.1, by rw [← hsame.1]; exact h.2⟩
  · intro c hc hcid
    exact before_behind ((List.pairwise_cons.mp hs2).1 c hc (hid.trans hcid.symm)) (.inl hx)

/-- That one is what the carved list leaves out. -/
theorem carveAll_equal {b : Lockf} {before after : List Lockf} (hs : Sorted (before ++ b :: after))
    (hid : b.lfId = lock.lfId) (hx : ovCase b lock = .equal) :
    carveAll lock fresh (before ++ b :: after) = before ++ after := by
  obtain ⟨hbefore, hafter⟩ := apart_equal hs hid hx
  rw [carveAll_append, carveAll_of_not_hit (not_hit_of_skipped hbefore),
    carveAll_cons_hit ⟨hid, by rw [hx]; simp⟩, carve_equal hx, List.nil_append,
    carveAll_of_not_hit fun c hc hit => not_hit_of_before (.inr (hafter c hc hit.1)) hit]

/-- It is the only one hit. -/
theorem hits_equal {b : Lockf} {before after : List Lockf} (hs : Sorted (before ++ b :: after))
    (hid : b.lfId = lock.lfId) (hx : ovCase b lock = .equal) :
    hits lock (before ++ b :: after) = [b] := by
  obtain ⟨hb, ha⟩ := apart_equal hs hid hx
  rw [hits_append, hits_of_not_hit (not_hit_of_skipped hb),
    hits_cons_hit ⟨hid, by rw [hx]; simp⟩,
    hits_of_not_hit fun c hc hcit => not_hit_of_before (.inr (ha c hc hcit.1)) hcit]
  rfl

theorem clearOk_equal {b : Lockf} {before after : List Lockf} (hs : Sorted (before ++ b :: after))
    (hid : b.lfId = lock.lfId) (hx : ovCase b lock = .equal) :
    ClearOk lock (before ++ b :: after) := by
  intro c hc hit hmax
  have hmem : c ∈ hits lock (before ++ b :: after) := mem_hits.mpr ⟨hc, hit⟩
  rw [hits_equal hs hid hx, List.mem_singleton] at hmem
  rw [hmem, (ovCase_equal hx).2, hmax]
  decide

/-- Either nothing changes, or the range is carved out and a lock put there. -/
theorem Put.insertion (h : Put lock fresh l S freed r) (hs : Sorted l) :
    (r.locks = l ∧ ∃ b ∈ l, b.lfId = lock.lfId ∧ ovCase b lock = .contains ∧ b.lfType = lock.lfType)
      ∨ ∃ before after lock', r.locks = before ++ lock' :: after ∧ SameRange lock lock'
          ∧ before ++ after = carveAll lock fresh l ∧ ClearOk lock l
          ∧ (∀ b ∈ before, b.lfId = lock.lfId → Before b lock)
          ∧ ∀ b ∈ after, b.lfId = lock.lfId → Before lock b := by
  cases h with
  | @same b hb hid hx hty => exact .inl ⟨rfl, b, hb, hid, hx, hty⟩
  | @equal b before after heq hid hx =>
      subst heq
      obtain ⟨hb, ha⟩ := apart_equal hs hid hx
      have hends := ovCase_equal hx
      refine .inr ⟨before, after, _, rfl, ?_, (carveAll_equal hs hid hx).symm, ?_, hb, ha⟩
      · split
        · exact ⟨hid, rfl, hends.1, hends.2⟩
        · exact ⟨hid, rfl, hends.1, hends.2⟩
      · exact clearOk_equal hs hid hx
  | @carved before after S' freed' hw hnew hb ha =>
      refine .inr ⟨before, after, _, rfl, ⟨rfl, rfl, rfl, rfl⟩, hw.tail, ?_, hb, ha⟩
      exact fun b hb hit => hnew b (mem_hits.mpr ⟨hb, hit⟩)

variable (hv : ∀ b ∈ l, b.Valid) (hl : lock.Ranged) (hs : Sorted l)

include hv hl hs

theorem Put.sorted (h : Put lock fresh l S freed r) : Sorted r.locks := by
  rcases h.insertion hs with ⟨heq, -⟩ | ⟨before, after, lock', heq, hsame, hcarve, hok, hb, ha⟩
  · rw [heq]
    exact hs
  · rw [heq]
    refine sorted_insert (hcarve ▸ carveAll_sorted hv hl hok hs) ?_ ?_
    · intro b hbb hid
      rw [hsame.before_left]
      exact hb b hbb (hid.trans hsame.lfId)
    · intro b hba hid
      rw [hsame.before_right]
      exact ha b hba (hid.trans hsame.lfId)

theorem Put.valid (hty : lock.lfType ≠ .unlck) (h : Put lock fresh l S freed r) :
    ∀ b ∈ r.locks, b.Valid := by
  rcases h.insertion hs with ⟨heq, -⟩ | ⟨before, after, lock', heq, hsame, hcarve, hok, -⟩
  · rw [heq]
    exact hv
  · intro b hb
    rw [heq, List.mem_append, List.mem_cons] at hb
    have hrest : ∀ c ∈ before ++ after, c.Valid := hcarve ▸ carveAll_valid hv hl hok
    rcases hb with hb | rfl | hb
    · exact hrest b (List.mem_append_left _ hb)
    · exact hsame.valid ⟨hl, hty⟩
    · exact hrest b (List.mem_append_right _ hb)

theorem Put.holds (h : Put lock fresh l S freed r) {o : Caddr} {x : Int} {t : LType} :
    Holds r.locks o x t ↔
      if o = lock.lfId ∧ lock.Covers x then t = lock.lfType else Holds l o x t := by
  rcases h.insertion hs with ⟨heq, b, hb, hid, hx, hty⟩ | ⟨before, after, lock', heq, hsame, hcarve, hok, -⟩
  · rw [heq]
    split
    · rename_i hin
      obtain ⟨rfl, hlx⟩ := hin
      have hcase := ovCase_contains hx
      have hbx : b.Covers x := by
        unfold Lockf.Covers at hlx ⊢
        omega
      constructor
      · rintro ⟨c, hc, hcid, hcx, rfl⟩
        rw [hs.unique hc hb (hcid.trans hid.symm) hcx hbx, hty]
      · rintro rfl
        exact ⟨b, hb, hid, hbx, hty⟩
    · rfl
  · rw [heq, holds_insert, hcarve, carveAll_holds hv hl hok, hsame.lfId, hsame.lfType, hsame.covers]
    split
    · rename_i hin
      obtain ⟨rfl, hlx⟩ := hin
      simp [hlx, eq_comm]
    · rename_i hout
      constructor
      · rintro (h | ⟨h1, h2, -⟩)
        · exact h.1
        · exact (hout ⟨h1.symm, h2⟩).elim
      · exact fun h => .inl ⟨h, hout⟩

end Put

/-! ## Modes -/

section Modes

variable {lock : Lockf} {F : File} (hv : ∀ b ∈ F.locks, b.Valid) (hl : lock.Ranged)
  (hs : Sorted F.locks)

include hv hl hs

theorem place_put (hok : PlaceOk lock F.locks) :
    ∃ r, place lock F = { locks := r.locks, sleepers := r.sleepers, next := F.next + 1, freed := r.freed }
      ∧ Put lock F.next F.locks F.sleepers F.freed r :=
  ⟨_, rfl, setLoop_places _ _ hv hl hs hok⟩

/-- A lock that is set gives its range its type, for its owner, and nothing else. -/
theorem place_mode (hok : PlaceOk lock F.locks) (o : Caddr) (x : Int) :
    mode (place lock F).locks o x
      = if o = lock.lfId ∧ lock.Covers x then some lock.lfType else mode F.locks o x := by
  obtain ⟨r, heq, hput⟩ := place_put hv hl hs hok
  have hsort := hput.sorted hv hl hs
  rw [heq]
  split
  · rename_i hin
    rw [mode_eq_some hsort, hput.holds hv hl hs, if_pos hin]
  · rename_i hout
    refine mode_congr hsort hs fun t => ?_
    rw [hput.holds hv hl hs, if_neg hout]

theorem lfClearlock_mode (hok : ClearOk lock F.locks) (o : Caddr) (x : Int) :
    mode (lfClearlock lock F).locks o x
      = if o = lock.lfId ∧ lock.Covers x then none else mode F.locks o x := by
  obtain ⟨tail, S', freed', heq, hw⟩ := lfClearlock_walked hv hs
  have hsort : Sorted (carveAll lock F.next F.locks) := carveAll_sorted hv hl hok hs
  rw [heq, hw.tail]
  split
  · rename_i hin
    rw [mode_eq_none hsort]
    intro t ht
    exact ((carveAll_holds hv hl hok).mp ht).2 hin
  · rename_i hout
    refine mode_congr hsort hs fun t => ?_
    rw [carveAll_holds hv hl hok]
    exact and_iff_left hout

end Modes

end Obsd.Lf
