import Obsd.LockfCarve

/-!
# What the walks over the locks come to

On a list in order the loop of `lf_clearlock` carves the range out of it,
and that of `lf_setlock` does the same and puts the new lock in its place
(`clearLoop_carves`, `setLoop_places`). Which waiters are woken, which
are moved, and which locks are given back is told from the list before.
Everything else about the two functions is derived from this.
-/

namespace Obsd.Lf

/-! ## `lf_findoverlap` -/

/-- Where a search among the own locks stops. -/
inductive SelfFound (lock : Lockf) : OvCase → List Lockf → Prop where
  | endOfList : SelfFound lock .noOverlap []
  | beyond {b : Lockf} {next : List Lockf} (hid : b.lfId = lock.lfId) (h : Before lock b) :
      SelfFound lock .noOverlap (b :: next)
  | overlap {b : Lockf} {next : List Lockf} (hid : b.lfId = lock.lfId)
      (h : ovCase b lock ≠ .noOverlap) : SelfFound lock (ovCase b lock) (b :: next)

theorem lfFindoverlap_self (lock : Lockf) (prev lf : List Lockf) :
    ∃ skipped rest ovcase, lf = skipped ++ rest
      ∧ lfFindoverlap .self lock prev lf = ⟨ovcase, skipped.reverse ++ prev, rest⟩
      ∧ (∀ b ∈ skipped, b.lfId = lock.lfId → Before b lock) ∧ SelfFound lock ovcase rest := by
  induction lf generalizing prev with
  | nil => exact ⟨[], [], .noOverlap, rfl, rfl, by simp, .endOfList⟩
  | cons lf next ih =>
      -- the search goes on behind `lf`
      have hskip : (lf.lfId = lock.lfId → Before lf lock) →
          lfFindoverlap .self lock prev (lf :: next)
            = lfFindoverlap .self lock (lf :: prev) next →
          ∃ skipped rest ovcase, lf :: next = skipped ++ rest
            ∧ lfFindoverlap .self lock prev (lf :: next) = ⟨ovcase, skipped.reverse ++ prev, rest⟩
            ∧ (∀ b ∈ skipped, b.lfId = lock.lfId → Before b lock)
            ∧ SelfFound lock ovcase rest := by
        intro hlf heq
        obtain ⟨skipped, rest, ovcase, rfl, hf, hs, hr⟩ := ih (lf :: prev)
        refine ⟨lf :: skipped, rest, ovcase, rfl, ?_, ?_, hr⟩
        · rw [heq, hf]
          simp
        · intro b hb
          rcases List.mem_cons.mp hb with rfl | hb
          · exact hlf
          · exact hs b hb
      by_cases hid : lf.lfId = lock.lfId
      · by_cases hov : ovCase lf lock = .noOverlap
        · by_cases hbeyond : lock.lfEnd ≠ -1 ∧ lf.lfStart > lock.lfEnd
          · refine ⟨[], lf :: next, .noOverlap, rfl, ?_, by simp, .beyond hid hbeyond⟩
            simp [lfFindoverlap, Whose.skips, hid, hov, hbeyond]
          · refine hskip (fun _ => ?_) ?_
            · exact (ovCase_noOverlap.mp hov).resolve_right hbeyond
            · simp [lfFindoverlap, Whose.skips, hid, hov]
              omega
        · refine ⟨[], lf :: next, ovCase lf lock, rfl, ?_, by simp, .overlap hid hov⟩
          simp [lfFindoverlap, Whose.skips, hid, hov]
      · refine hskip (fun h => (hid h).elim) ?_
        simp [lfFindoverlap, Whose.skips, hid]

/-- Of another owner, overlapping, and one of the two is for writing. -/
def Blocks (lock b : Lockf) : Prop :=
  b.lfId ≠ lock.lfId ∧ ovCase b lock ≠ .noOverlap ∧ (lock.lfType = .wrlck ∨ b.lfType = .wrlck)

instance (lock b : Lockf) : Decidable (Blocks lock b) := inferInstanceAs (Decidable (_ ∧ _))

theorem lfFindoverlap_others (lock : Lockf) (prev lf : List Lockf) :
    ∃ skipped rest, lf = skipped ++ rest ∧ (∀ b ∈ skipped, ¬Blocks lock b)
      ∧ (lfFindoverlap .others lock prev lf).overlap = rest
      ∧ ((rest = [] ∧ (lfFindoverlap .others lock prev lf).ovcase = .noOverlap)
        ∨ ∃ b next, rest = b :: next ∧ b.lfId ≠ lock.lfId ∧ ovCase b lock ≠ .noOverlap
          ∧ (lfFindoverlap .others lock prev lf).ovcase = ovCase b lock) := by
  induction lf generalizing prev with
  | nil => exact ⟨[], [], rfl, by simp, rfl, .inl ⟨rfl, rfl⟩⟩
  | cons lf next ih =>
      by_cases hid : lf.lfId = lock.lfId
      · obtain ⟨skipped, rest, rfl, hs, hr⟩ := ih (lf :: prev)
        refine ⟨lf :: skipped, rest, rfl, ?_, ?_⟩
        · intro b hb
          rcases List.mem_cons.mp hb with rfl | hb
          · exact fun h => h.1 hid
          · exact hs b hb
        · simpa [lfFindoverlap, Whose.skips, hid] using hr
      · by_cases hov : ovCase lf lock = .noOverlap
        · obtain ⟨skipped, rest, rfl, hs, hr⟩ := ih (lf :: prev)
          refine ⟨lf :: skipped, rest, rfl, ?_, ?_⟩
          · intro b hb
            rcases List.mem_cons.mp hb with rfl | hb
            · exact fun h => h.2.1 hov
            · exact hs b hb
          · simpa [lfFindoverlap, Whose.skips, hid, hov] using hr
        · refine ⟨[], lf :: next, rfl, by simp, ?_, .inr ⟨lf, next, rfl, hid, hov, ?_⟩⟩
          · simp [lfFindoverlap, Whose.skips, hid, hov]
          · simp [lfFindoverlap, Whose.skips, hid, hov]

theorem getblockLoop_eq (lock : Lockf) :
    ∀ {fuel : Nat} {lf : List Lockf}, lf.length < fuel →
      getblockLoop lock fuel lf = lf.find? fun b => decide (Blocks lock b)
  | 0, _, h => by omega
  | fuel + 1, lf, h => by
      obtain ⟨skipped, rest, rfl, hs, hrest, hcase⟩ := lfFindoverlap_others lock [] lf
      have hnone : skipped.find? (fun b => decide (Blocks lock b)) = none := by
        simpa [List.find?_eq_none] using hs
      rw [List.find?_append, hnone, Option.none_or]
      unfold getblockLoop
      dsimp only
      rw [hrest]
      rcases hcase with ⟨rfl, hc⟩ | ⟨b, next, rfl, hid, hov, hc⟩
      · rw [hc]
        rfl
      · rw [hc]
        have hlen : next.length < fuel := by
          simp only [List.length_append, List.length_cons] at h
          omega
        have hstep : (b :: next).find? (fun b => decide (Blocks lock b))
            = if lock.lfType = .wrlck ∨ b.lfType = .wrlck then some b
              else getblockLoop lock fuel next := by
          rw [List.find?_cons, getblockLoop_eq lock hlen]
          by_cases hw : lock.lfType = .wrlck ∨ b.lfType = .wrlck
          · simp [Blocks, hid, hov, hw]
          · simp [Blocks, hid, hov, hw]
        rw [hstep]
        cases hx : ovCase b lock with
        | noOverlap => exact (hov hx).elim
        | equal => rfl
        | contains => rfl
        | contained => rfl
        | startsBefore => rfl
        | endsAfter => rfl
        | panics => rfl

theorem lfGetblock_eq (lock : Lockf) (locks : List Lockf) :
    lfGetblock lock locks = locks.find? fun b => decide (Blocks lock b) :=
  getblockLoop_eq lock (Nat.lt_succ_self _)

/-! ## Behind the overlap -/

section Behind

variable {lock b c : Lockf} {fresh : Nat} {l next : List Lockf}

theorem not_hit_of_before (h : Before b lock ∨ Before lock b) : ¬Hit lock b :=
  fun hit => hit.2 (ovCase_noOverlap.mpr h)

theorem not_hit_of_skipped {skipped : List Lockf}
    (h : ∀ b ∈ skipped, b.lfId = lock.lfId → Before b lock) : ∀ b ∈ skipped, ¬Hit lock b :=
  fun b hb hit => not_hit_of_before (.inl (h b hb hit.1)) hit

/-- A lock that is not cut at its end by the range leaves none behind it to be cut. -/
theorem before_behind (h : Before b c)
    (hcase : ovCase b lock = .equal ∨ ovCase b lock = .contains ∨ ovCase b lock = .endsAfter) :
    Before lock c := by
  obtain ⟨h1, h2⟩ := h
  unfold ovCase at hcase
  dsimp only at hcase
  split_ifs at hcase with h3 h4 h5 h6 h7 h8
  all_goals simp only [or_self, or_false, false_or] at hcase
  all_goals exact ⟨by omega, by omega⟩

/-- A lock that begins behind the first byte of the range is absorbed by it or cut
at its beginning, if it meets it. -/
theorem ovCase_late (h : lock.lfStart < b.lfStart) :
    ovCase b lock = .noOverlap ∨ ovCase b lock = .contained ∨ ovCase b lock = .endsAfter := by
  unfold ovCase
  dsimp only
  split_ifs <;> first | omega | simp

theorem ovCase_equal (h : ovCase b lock = .equal) :
    b.lfStart = lock.lfStart ∧ b.lfEnd = lock.lfEnd := by
  unfold ovCase at h
  dsimp only at h
  split_ifs at h with h0 h1
  exact h1

theorem ovCase_contains (h : ovCase b lock = .contains) :
    b.lfStart ≤ lock.lfStart ∧ (b.lfEnd = -1 ∨ (lock.lfEnd ≠ -1 ∧ b.lfEnd ≥ lock.lfEnd))
      ∧ ¬(b.lfStart = lock.lfStart ∧ b.lfEnd = lock.lfEnd) := by
  unfold ovCase at h
  dsimp only at h
  split_ifs at h with h0 h1 h2
  exact ⟨h2.1, h2.2, h1⟩

theorem ovCase_startsBefore (h : ovCase b lock = .startsBefore) : b.lfStart < lock.lfStart := by
  unfold ovCase at h
  dsimp only at h
  split_ifs at h with h0 h1 h2 h3 h4
  exact h4.1

theorem ovCase_endsAfter (h : ovCase b lock = .endsAfter) :
    lock.lfEnd ≠ -1 ∧ (b.lfEnd = -1 ∨ lock.lfEnd < b.lfEnd) := by
  unfold ovCase at h
  dsimp only at h
  split_ifs at h with h0 h1 h2 h3 h4 h5
  exact ⟨h5.2.1, by omega⟩

/-- If the first lock is the last one hit, the others lie behind the range. -/
theorem not_hit_behind (hs : Sorted (b :: next)) (hid : b.lfId = lock.lfId)
    (hb : ∀ c, Before b c → Before lock c) : ∀ c ∈ next, ¬Hit lock c := by
  intro c hc hit
  have hbc := (List.pairwise_cons.mp hs).1 c hc (hid.trans hit.1.symm)
  exact not_hit_of_before (.inr (hb c hbc)) hit

theorem carveAll_of_not_hit (h : ∀ b ∈ l, ¬Hit lock b) : carveAll lock fresh l = l := by
  induction l with
  | nil => rfl
  | cons b l ih =>
      obtain ⟨h1, h2⟩ := List.forall_mem_cons.mp h
      have hb : carveOwn lock fresh b = [b] := if_neg h1
      rw [carveAll, List.flatMap_cons, hb, ← carveAll, ih h2]
      rfl

theorem carveAll_append (l l' : List Lockf) :
    carveAll lock fresh (l ++ l') = carveAll lock fresh l ++ carveAll lock fresh l' :=
  List.flatMap_append

theorem carveAll_cons_hit (hit : Hit lock b) :
    carveAll lock fresh (b :: l) = carve lock fresh b ++ carveAll lock fresh l := by
  have hb : carveOwn lock fresh b = carve lock fresh b := if_pos hit
  rw [carveAll, List.flatMap_cons, hb, ← carveAll]

/-- The locks that have to give way. -/
def hits (lock : Lockf) (l : List Lockf) : List Lockf := l.filter fun b => decide (Hit lock b)

theorem hits_append (l l' : List Lockf) : hits lock (l ++ l') = hits lock l ++ hits lock l' :=
  List.filter_append ..

theorem hits_of_not_hit (h : ∀ b ∈ l, ¬Hit lock b) : hits lock l = [] := by
  simpa [hits, List.filter_eq_nil_iff] using h

theorem hits_cons_hit (hit : Hit lock b) : hits lock (b :: l) = b :: hits lock l := by
  simp [hits, hit]

theorem mem_hits : b ∈ hits lock l ↔ b ∈ l ∧ Hit lock b := by simp [hits]

end Behind

/-! ## Walks -/

/-- All of `l` has been walked, with `tail` to show for it: the range is carved out,
`act` was done for every lock hit, and those of which nothing is left are given
back. -/
structure Walked (lock : Lockf) (fresh : Nat) (act : Lockf → List Sleeper → List Sleeper)
    (l : List Lockf) (S : List Sleeper) (freed : List Nat) (tail : List Lockf) (S' : List Sleeper)
    (freed' : List Nat) : Prop where
  tail : tail = carveAll lock fresh l
  sleepers : S' = (hits lock l).foldl (fun S b => act b S) S
  freed : ∀ a, a ∈ freed' ↔ a ∈ freed ∨ ∃ b ∈ hits lock l, carve lock fresh b = [] ∧ b.addr = a

section Walks

variable {lock b : Lockf} {fresh : Nat} {act : Lockf → List Sleeper → List Sleeper}
  {l next tail pieces skipped : List Lockf} {S S' : List Sleeper} {freed freed' freed₁ : List Nat}

theorem Walked.none (h : ∀ b ∈ l, ¬Hit lock b) : Walked lock fresh act l S freed l S freed := by
  refine ⟨?_, ?_, ?_⟩
  · rw [carveAll_of_not_hit h]
  · rw [hits_of_not_hit h]
    rfl
  · rw [hits_of_not_hit h]
    simp

theorem Walked.skip (hs : ∀ b ∈ skipped, ¬Hit lock b)
    (h : Walked lock fresh act l S freed tail S' freed') :
    Walked lock fresh act (skipped ++ l) S freed (skipped ++ tail) S' freed' := by
  obtain ⟨h1, h2, h3⟩ := h
  refine ⟨?_, ?_, ?_⟩
  · rw [h1, carveAll_append, carveAll_of_not_hit hs]
  · rw [h2, hits_append, hits_of_not_hit hs, List.nil_append]
  · rw [hits_append, hits_of_not_hit hs, List.nil_append]
    exact h3

/-- What is done with the rest is done behind the locks skipped. -/
theorem Walked.behind {rest prev : List Lockf} {r : Placed} (hs : ∀ b ∈ skipped, ¬Hit lock b)
    (h : ∃ tail S' freed', r = ⟨(skipped.reverse ++ prev).reverse ++ tail, S', freed'⟩
      ∧ Walked lock fresh act rest S freed tail S' freed') :
    ∃ tail S' freed', r = ⟨prev.reverse ++ tail, S', freed'⟩
      ∧ Walked lock fresh act (skipped ++ rest) S freed tail S' freed' := by
  obtain ⟨tail, S', freed', rfl, hw⟩ := h
  exact ⟨skipped ++ tail, S', freed', by simp, hw.skip hs⟩

/-- The first lock is hit, and the walk goes on. -/
theorem Walked.more (hit : Hit lock b) (hp : carve lock fresh b = pieces)
    (hf : ∀ a, a ∈ freed₁ ↔ a ∈ freed ∨ (pieces = [] ∧ b.addr = a))
    (h : Walked lock fresh act next (act b S) freed₁ tail S' freed') :
    Walked lock fresh act (b :: next) S freed (pieces ++ tail) S' freed' := by
  obtain ⟨h1, h2, h3⟩ := h
  refine ⟨?_, ?_, ?_⟩
  · rw [h1, carveAll_cons_hit hit, hp]
  · rw [h2, hits_cons_hit hit]
    rfl
  · intro a
    rw [h3, hf, hits_cons_hit hit]
    simp only [List.mem_cons, exists_eq_or_imp, hp]
    exact or_assoc

/-- The first lock is hit, and none behind it. -/
theorem Walked.last (hit : Hit lock b) (hnext : ∀ c ∈ next, ¬Hit lock c)
    (hp : carve lock fresh b = pieces)
    (hf : ∀ a, a ∈ freed₁ ↔ a ∈ freed ∨ (pieces = [] ∧ b.addr = a)) :
    Walked lock fresh act (b :: next) S freed (pieces ++ next) (act b S) freed₁ :=
  Walked.more hit hp hf (Walked.none hnext)

/-- A lock of which nothing is left is given back. -/
theorem mem_freed_gone (a : Nat) :
    a ∈ b.addr :: freed ↔ a ∈ freed ∨ (([] : List Lockf) = [] ∧ b.addr = a) := by
  simp only [List.mem_cons, true_and]
  rw [or_comm, eq_comm]

/-- One of which something is left is kept. -/
theorem mem_freed_kept (h : pieces ≠ []) (a : Nat) :
    a ∈ freed ↔ a ∈ freed ∨ (pieces = [] ∧ b.addr = a) := by
  simp [h]

theorem lfSplit_ne_nil (lock1 lock2 : Lockf) (fresh : Nat) :
    (lfSplit lock1 lock2 fresh).1 ++ (lfSplit lock1 lock2 fresh).2 ≠ [] := by
  unfold lfSplit
  split_ifs <;> simp

end Walks

/-! ## `lf_clearlock` -/

section Clear

variable {lock : Lockf} {fresh : Nat}

theorem clearLoop_carves :
    ∀ {fuel : Nat} (prev : List Lockf) {lf : List Lockf} (S : List Sleeper) (freed : List Nat),
      lf.length < fuel → (∀ b ∈ lf, b.Valid) → Sorted lf →
      ∃ tail S' freed', clearLoop lock fresh fuel prev lf S freed = ⟨prev.reverse ++ tail, S', freed'⟩
        ∧ Walked lock fresh lfWakelock lf S freed tail S' freed'
  | 0, _, _, _, _, h, _, _ => by omega
  | fuel + 1, prev, lf, S, freed, h, hv, hs => by
      obtain ⟨skipped, rest, ovcase, rfl, hf, hskip, hfound⟩ := lfFindoverlap_self lock prev lf
      have hskip := not_hit_of_skipped hskip
      have hv' : ∀ b ∈ rest, b.Valid := fun b hb => hv b (List.mem_append_right _ hb)
      have hs' : Sorted rest := (List.pairwise_append.mp hs).2.1
      have hlen : rest.length < fuel + 1 := by
        simp only [List.length_append] at h
        omega
      unfold clearLoop
      rw [hf]
      refine Walked.behind hskip ?_
      cases hfound with
      | endOfList => exact ⟨[], S, freed, rfl, .none (by simp)⟩
      | @beyond b next hid hb =>
          have hnext := not_hit_behind hs' hid fun c hbc => hb.trans (hv' b (by simp)) hbc
          refine ⟨b :: next, S, freed, rfl, .none ?_⟩
          exact List.forall_mem_cons.mpr ⟨not_hit_of_before (.inr hb), hnext⟩
      | @overlap b next hid hov =>
          have hit : Hit lock b := ⟨hid, hov⟩
          have hvn : ∀ c ∈ next, c.Valid := fun c hc => hv' c (List.mem_cons_of_mem _ hc)
          have hsn : Sorted next := (List.pairwise_cons.mp hs').2
          have hlast := not_hit_behind hs' hid
          have hlenn : next.length < fuel := by
            simp only [List.length_cons] at hlen
            omega
          cases hx : ovCase b lock with
          | noOverlap => exact (hov hx).elim
          | equal =>
              have hlast := hlast fun c hbc => before_behind hbc (.inl hx)
              exact ⟨_, _, _, rfl, .last hit hlast (carve_equal hx) mem_freed_gone⟩
          | contains =>
              have hlast := hlast fun c hbc => before_behind hbc (.inr (.inl hx))
              have hp : carve lock fresh b = _ := carve_contains hx
              dsimp only
              split
              · rename_i hst
                rw [if_pos hst] at hp
                exact ⟨_, _, _, rfl, .last hit hlast hp (mem_freed_kept (by simp))⟩
              · rename_i hst
                rw [if_neg hst] at hp
                refine ⟨_, _, _, ?_, .last hit hlast hp (mem_freed_kept (lfSplit_ne_nil _ _ _))⟩
                simp
          | contained =>
              obtain ⟨tail, S', freed', heq, hw⟩ := clearLoop_carves (skipped.reverse ++ prev)
                (lfWakelock b S) (b.addr :: freed) hlenn hvn hsn
              exact ⟨tail, S', freed', heq, .more hit (carve_contained hx) mem_freed_gone hw⟩
          | startsBefore =>
              obtain ⟨tail, S', freed', heq, hw⟩ := clearLoop_carves
                (b.woken.upTo lock :: (skipped.reverse ++ prev)) (lfWakelock b S) freed
                hlenn hvn hsn
              refine ⟨_, S', freed', ?_, .more hit (carve_startsBefore hx) (mem_freed_kept (by simp)) hw⟩
              simpa using heq
          | endsAfter =>
              have hlast := hlast fun c hbc => before_behind hbc (.inr (.inr hx))
              exact ⟨_, _, _, rfl, .last hit hlast (carve_endsAfter hx) (mem_freed_kept (by simp))⟩
          | panics => exact (ovCase_ne_panics hx).elim

end Clear

/-! ## `lf_setlock` -/

/-- The waiters on `b` are moved to `lock`, which takes its place. -/
def Takes (lock b : Lockf) : Prop := ovCase b lock = .contained ∧ downgrades lock b = false

instance (lock b : Lockf) : Decidable (Takes lock b) := inferInstanceAs (Decidable (_ ∧ _))

/-- What becomes of the waiters on a lock that is hit. -/
def settle (lock b : Lockf) (S : List Sleeper) : List Sleeper :=
  if Takes lock b then moveBlkhd b lock S else lfWakelock b S

/-- The lock with the waiters it takes over. -/
def Lockf.taking (lock : Lockf) (bs : List Lockf) : Lockf :=
  { lock with lfBlkhd := lock.lfBlkhd ++ bs.flatMap fun b => if Takes lock b then b.lfBlkhd else [] }

section Set

variable {fresh : Nat}

/-- `lock` after it has absorbed `b`. -/
def absorb (lock b : Lockf) : Lockf :=
  if downgrades lock b then lock else { lock with lfBlkhd := lock.lfBlkhd ++ b.lfBlkhd }

/-- What the walk does does not depend on who waits on `lock`. -/
theorem Walked.of_absorb {lock b : Lockf} {l tail : List Lockf} {S S' : List Sleeper}
    {freed freed' : List Nat}
    (h : Walked (absorb lock b) fresh (settle (absorb lock b)) l S freed tail S' freed') :
    Walked lock fresh (settle lock) l S freed tail S' freed' := by
  unfold absorb at h
  split at h
  · exact h
  · exact ⟨h.tail, h.sleepers, h.freed⟩

theorem hits_absorb (lock b : Lockf) (l : List Lockf) : hits (absorb lock b) l = hits lock l := by
  unfold absorb
  split <;> rfl

theorem absorb_lfId (lock b : Lockf) : (absorb lock b).lfId = lock.lfId := by
  unfold absorb
  split <;> rfl

theorem absorb_lfStart (lock b : Lockf) : (absorb lock b).lfStart = lock.lfStart := by
  unfold absorb
  split <;> rfl

section Absorb

variable {lock b : Lockf} (h : ovCase b lock = .contained)

include h

theorem takes_iff : Takes lock b ↔ downgrades lock b = false := by simp [Takes, h]

theorem absorb_taking (bs : List Lockf) : (absorb lock b).taking bs = lock.taking (b :: bs) := by
  unfold absorb
  split
  · rename_i hd
    have hnt : ¬Takes lock b := by simp [takes_iff h, hd]
    simp only [Lockf.taking, List.flatMap_cons, if_neg hnt, List.nil_append]
  · rename_i hd
    have ht : Takes lock b := by simpa [takes_iff h] using hd
    simp only [Lockf.taking, List.flatMap_cons, if_pos ht, List.append_assoc]
    rfl

theorem absorb_settle (S : List Sleeper) :
    (if downgrades lock b then lfWakelock b S else moveBlkhd b lock S) = settle lock b S := by
  unfold settle
  simp only [takes_iff h]
  cases downgrades lock b <;> rfl

end Absorb

theorem taking_cons_of_not {lock b : Lockf} (bs : List Lockf) (h : ¬Takes lock b) :
    lock.taking (b :: bs) = lock.taking bs := by
  simp only [Lockf.taking, List.flatMap_cons, if_neg h, List.nil_append]

theorem settle_of_not {lock b : Lockf} (h : ¬Takes lock b) (S : List Sleeper) :
    settle lock b S = lfWakelock b S := if_neg h

theorem not_takes {lock b : Lockf} (h : ovCase b lock ≠ .contained) : ¬Takes lock b :=
  fun ht => h ht.1

/-- Once `lock` is linked, the locks of its owner begin behind its first byte: they
are absorbed, or cut at their beginning, or left alone. -/
theorem setLoop_linked (fresh : Nat) :
    ∀ {fuel : Nat} (before mid : List Lockf) {block : List Lockf} (lock : Lockf) (S : List Sleeper)
      (freed : List Nat), block.length < fuel → (∀ b ∈ block, b.Valid) → Sorted block →
      (∀ b ∈ block, b.lfId = lock.lfId → lock.lfStart < b.lfStart) →
      ∃ tail S' freed', setLoop fresh fuel false before mid block lock S freed
          = ⟨before.reverse ++ lock.taking (hits lock block) :: (mid.reverse ++ tail), S', freed'⟩
        ∧ Walked lock fresh (settle lock) block S freed tail S' freed'
  | 0, _, _, _, _, _, _, h, _, _, _ => by omega
  | fuel + 1, before, mid, block, lock, S, freed, h, hv, hs, hstart => by
      obtain ⟨skipped, rest, ovcase, rfl, hf, hskip, hfound⟩ := lfFindoverlap_self lock mid block
      have hskip := not_hit_of_skipped hskip
      have hv' : ∀ b ∈ rest, b.Valid := fun b hb => hv b (List.mem_append_right _ hb)
      have hs' : Sorted rest := (List.pairwise_append.mp hs).2.1
      have hstart' : ∀ b ∈ rest, b.lfId = lock.lfId → lock.lfStart < b.lfStart :=
        fun b hb => hstart b (List.mem_append_right _ hb)
      have hlen : rest.length < fuel + 1 := by
        simp only [List.length_append] at h
        omega
      unfold setLoop
      rw [hits_append, hits_of_not_hit hskip, List.nil_append]
      simp only [Bool.false_eq_true, if_false]
      rw [hf]
      cases hfound with
      | endOfList =>
          refine ⟨skipped ++ [], S, freed, ?_, (Walked.none (by simp)).skip hskip⟩
          simp [hits, Lockf.taking]
      | @beyond b next hid hb =>
          have hnext := not_hit_behind hs' hid fun c hbc => hb.trans (hv' b (by simp)) hbc
          have hnone : ∀ c ∈ b :: next, ¬Hit lock c :=
            List.forall_mem_cons.mpr ⟨not_hit_of_before (.inr hb), hnext⟩
          refine ⟨skipped ++ b :: next, S, freed, ?_, (Walked.none hnone).skip hskip⟩
          simp [hits_of_not_hit hnone, Lockf.taking]
      | @overlap b next hid hov =>
          have hit : Hit lock b := ⟨hid, hov⟩
          have hvn : ∀ c ∈ next, c.Valid := fun c hc => hv' c (List.mem_cons_of_mem _ hc)
          have hsn : Sorted next := (List.pairwise_cons.mp hs').2
          have hstn : ∀ c ∈ next, c.lfId = lock.lfId → lock.lfStart < c.lfStart :=
            fun c hc => hstart' c (List.mem_cons_of_mem _ hc)
          have hgt := hstart' b (by simp) hid
          have hlenn : next.length < fuel := by
            simp only [List.length_cons] at hlen
            omega
          rw [hits_cons_hit hit]
          rcases ovCase_late hgt with hx | hx | hx
          · exact (hov hx).elim
          · rw [hx]
            obtain ⟨tail, S', freed', heq, hw⟩ := setLoop_linked fresh before (skipped.reverse ++ mid)
              (absorb lock b) (settle lock b S) (b.addr :: freed) hlenn hvn hsn
              (by rw [absorb_lfId, absorb_lfStart]; exact hstn)
            rw [hits_absorb, absorb_taking hx] at heq
            dsimp only
            rw [absorb_settle hx]
            refine ⟨skipped ++ ([] ++ tail), S', freed', heq.trans (by simp), ?_⟩
            exact (Walked.more hit (carve_contained hx) mem_freed_gone hw.of_absorb).skip hskip
          · rw [hx]
            have hlast := not_hit_behind hs' hid fun c hbc => before_behind hbc (.inr (.inr hx))
            have hnt : ¬Takes lock b := not_takes (by rw [hx]; simp)
            refine ⟨skipped ++ ([b.woken.fromEnd lock] ++ next), lfWakelock b S, freed, ?_, ?_⟩
            · simp [hits_of_not_hit hlast, Lockf.taking, hnt]
            · rw [← settle_of_not hnt]
              exact (Walked.last hit hlast (carve_endsAfter hx) (mem_freed_kept (by simp))).skip hskip

/-- A remainder begins at a wrapped offset only in a lock that is not cut at all,
because the request asks for nothing new. -/
def PlaceOk (lock : Lockf) (l : List Lockf) : Prop :=
  ∀ b ∈ l, Hit lock b → NoWrap lock b ∨ (ovCase b lock = .contains ∧ b.lfType = lock.lfType)

instance (lock : Lockf) (l : List Lockf) : Decidable (PlaceOk lock l) :=
  inferInstanceAs (Decidable (∀ _ ∈ _, _))

/-- What `lf_setlock` makes of a list: nothing, if a lock of the owner has it all;
a new type for a lock with the same range; or the range carved out and the lock
put there. -/
inductive Put (lock : Lockf) (fresh : Nat) (l : List Lockf) (S : List Sleeper) (freed : List Nat) :
    Placed → Prop where
  | same {b : Lockf} (hb : b ∈ l) (hid : b.lfId = lock.lfId) (hx : ovCase b lock = .contains)
      (hty : b.lfType = lock.lfType) : Put lock fresh l S freed ⟨l, S, lock.addr :: freed⟩
  | equal {b : Lockf} {before after : List Lockf} (heq : l = before ++ b :: after)
      (hid : b.lfId = lock.lfId) (hx : ovCase b lock = .equal) :
      Put lock fresh l S freed
        ⟨before ++ { if downgrades lock b then b.woken else b with lfType := lock.lfType } :: after,
          if downgrades lock b then lfWakelock b S else S, lock.addr :: freed⟩
  | carved {before after : List Lockf} {S' : List Sleeper} {freed' : List Nat}
      (hw : Walked lock fresh (settle lock) l S freed (before ++ after) S' freed')
      (hnew : ∀ b ∈ hits lock l, NoWrap lock b)
      (hb : ∀ b ∈ before, b.lfId = lock.lfId → Before b lock)
      (ha : ∀ b ∈ after, b.lfId = lock.lfId → Before lock b) :
      Put lock fresh l S freed ⟨before ++ lock.taking (hits lock l) :: after, S', freed'⟩

theorem before_of_lt {lock c : Lockf} (hc : c.Valid) (h : Before c lock ∨ Before lock c)
    (hs : lock.lfStart < c.lfStart) : Before lock c := by
  rcases h with ⟨h1, h2⟩ | h
  · have := hc.end_
    omega
  · exact h

/-- The locks behind one that is hit begin behind the first byte of the range. -/
theorem start_behind {lock b c : Lockf} (hit : Hit lock b) (h : Before b c) :
    lock.lfStart < c.lfStart := by
  have hov := hit.2
  rw [Ne, ovCase_noOverlap] at hov
  simp only [Before, not_or, not_and, Int.not_lt] at hov
  obtain ⟨h1, h2⟩ := h
  omega

theorem taking_of_not {lock : Lockf} {bs : List Lockf} (h : ∀ b ∈ bs, ¬Takes lock b) :
    lock.taking bs = lock := by
  have hnil : bs.flatMap (fun b => if Takes lock b then b.lfBlkhd else []) = [] := by
    simp only [List.flatMap_eq_nil_iff]
    intro b hb
    rw [if_neg (h b hb)]
  rw [Lockf.taking, hnil, List.append_nil]

section Places

variable {lock : Lockf} {l skipped after : List Lockf} {S S' : List Sleeper}
  {freed freed' : List Nat}

/-- The lock is put behind locks that are not hit. -/
theorem Put.behind (before : List Lockf) (hskip : ∀ b ∈ skipped, b.lfId = lock.lfId → Before b lock)
    (hw : Walked lock fresh (settle lock) l S freed (before ++ after) S' freed')
    (hnew : ∀ b ∈ hits lock l, NoWrap lock b)
    (hb : ∀ b ∈ before, b.lfId = lock.lfId → Before b lock)
    (ha : ∀ b ∈ after, b.lfId = lock.lfId → Before lock b) :
    Put lock fresh (skipped ++ l) S freed
      ⟨skipped ++ (before ++ lock.taking (hits lock l) :: after), S', freed'⟩ := by
  have hsk := not_hit_of_skipped hskip
  have hhits : hits lock (skipped ++ l) = hits lock l := by
    rw [hits_append, hits_of_not_hit hsk, List.nil_append]
  have hw' := hw.skip hsk
  rw [← List.append_assoc] at hw' ⊢
  rw [← hhits] at hnew ⊢
  refine Put.carved hw' hnew ?_ ha
  intro b hbb
  rcases List.mem_append.mp hbb with hbb | hbb
  · exact hskip b hbb
  · exact hb b hbb

/-- The lock is put in front of what it leaves. -/
theorem Put.front (hskip : ∀ b ∈ skipped, b.lfId = lock.lfId → Before b lock)
    (hw : Walked lock fresh (settle lock) l S freed after S' freed')
    (hnew : ∀ b ∈ hits lock l, NoWrap lock b)
    (ha : ∀ b ∈ after, b.lfId = lock.lfId → Before lock b) :
    Put lock fresh (skipped ++ l) S freed
      ⟨skipped ++ lock.taking (hits lock l) :: after, S', freed'⟩ :=
  Put.behind [] hskip hw hnew (by simp) ha

/-- What the walk leaves behind a lock that is hit lies behind the range. -/
theorem tail_behind (hv : ∀ b ∈ l, b.Valid) (hl : lock.Ranged)
    (hw : ∀ b ∈ l, Hit lock b → NoWrap lock b)
    (hst : ∀ b ∈ l, b.lfId = lock.lfId → lock.lfStart < b.lfStart) :
    ∀ c ∈ carveAll lock fresh l, c.lfId = lock.lfId → Before lock c := by
  intro c hc hid
  refine before_of_lt (carveAll_valid hv hl hw c hc) (carveAll_apart hv hl hw hc hid) ?_
  rcases mem_carveAll hv hl hw hc with ⟨hc, -⟩ | ⟨b, hb, hit, hr⟩
  · exact hst c hc hid
  · have h1 := hst b hb hit.1
    have h2 := hr.start
    omega

/-- The lock goes between the two parts of the only one that is hit. -/
theorem Put.between {b : Lockf} (left right : List Lockf) {next : List Lockf}
    (hskip : ∀ c ∈ skipped, c.lfId = lock.lfId → Before c lock) (hit : Hit lock b)
    (hx : ovCase b lock ≠ .contained) (hnw : NoWrap lock b) (hp : carve lock fresh b = left ++ right)
    (hne : left ++ right ≠ []) (hleft : ∀ c ∈ left, Before c lock)
    (hright : ∀ c ∈ right, Before lock c)
    (hnext : ∀ c ∈ next, c.lfId = lock.lfId → Before lock c) :
    Put lock fresh (skipped ++ b :: next) S freed
      ⟨skipped ++ (left ++ lock :: (right ++ next)), lfWakelock b S, freed⟩ := by
  have hlast : ∀ c ∈ next, ¬Hit lock c :=
    fun c hc hcit => not_hit_of_before (.inr (hnext c hc hcit.1)) hcit
  have hhits : hits lock (b :: next) = [b] := by
    rw [hits_cons_hit hit, hits_of_not_hit hlast]
  have hw : Walked lock fresh (settle lock) (b :: next) S freed (left ++ (right ++ next))
      (settle lock b S) freed := by
    rw [← List.append_assoc]
    exact .last hit hlast hp (mem_freed_kept hne)
  have hput := Put.behind left hskip hw (by simpa [hhits] using hnw) (fun c hc _ => hleft c hc)
    (by
      intro c hc hcid
      rcases List.mem_append.mp hc with hc | hc
      · exact hright c hc
      · exact hnext c hc hcid)
  rw [hhits, taking_of_not (by simpa using not_takes hx), settle_of_not (not_takes hx)] at hput
  exact hput

/-- The two sides of a lock that is split. -/
theorem lfSplit_sides {b : Lockf} (fresh : Nat) (hb : b.Valid) (hl : lock.Ranged) (hw : NoWrap lock b)
    (h : b.lfStart ≤ lock.lfStart ∧ (b.lfEnd = -1 ∨ (lock.lfEnd ≠ -1 ∧ b.lfEnd ≥ lock.lfEnd))
      ∧ ¬(b.lfStart = lock.lfStart ∧ b.lfEnd = lock.lfEnd)) (hst : ¬b.lfStart = lock.lfStart) :
    (∀ c ∈ (lfSplit b.woken lock fresh).1, Before c lock)
      ∧ ∀ c ∈ (lfSplit b.woken lock fresh).2, Before lock c := by
  have hleft := upTo_before hb hl (by omega)
  unfold lfSplit
  rw [if_neg (show ¬b.woken.lfStart = lock.lfStart from hst)]
  split
  · exact ⟨by simpa using hleft, by simp⟩
  · rename_i he
    have hne : ¬b.lfEnd = lock.lfEnd := he
    have hright : Before lock (b.woken.splitlock lock fresh) :=
      before_behind_range hb hl hw (by omega) rfl
    exact ⟨by simpa using hleft, by simpa using hright⟩

theorem setLoop_places (S : List Sleeper) (freed : List Nat)
    (hv : ∀ b ∈ l, b.Valid) (hl : lock.Ranged) (hs : Sorted l) (hok : PlaceOk lock l) :
    Put lock fresh l S freed (setLoop fresh (l.length + 1) true [] [] l lock S freed) := by
  obtain ⟨skipped, rest, ovcase, rfl, hf, hskip, hfound⟩ := lfFindoverlap_self lock [] l
  have hv' : ∀ b ∈ rest, b.Valid := fun b hb => hv b (List.mem_append_right _ hb)
  have hs' : Sorted rest := (List.pairwise_append.mp hs).2.1
  have hok' : PlaceOk lock rest := fun b hb => hok b (List.mem_append_right _ hb)
  unfold setLoop
  simp only [if_true]
  rw [hf]
  simp only [List.append_nil, List.reverse_reverse, List.reverse_nil]
  cases hfound with
  | endOfList =>
      have hw : Walked lock fresh (settle lock) [] S freed [] S freed := .none (by simp)
      have hput := Put.front hskip hw (by simp [hits]) (by simp)
      simpa [hits, Lockf.taking] using hput
  | @beyond b next hid hb =>
      have hbehind : ∀ c ∈ b :: next, c.lfId = lock.lfId → Before lock c := by
        intro c hc hcid
        rcases List.mem_cons.mp hc with rfl | hc
        · exact hb
        · exact hb.trans (hv' b (by simp)) ((List.pairwise_cons.mp hs').1 c hc (hid.trans hcid.symm))
      have hnone : ∀ c ∈ b :: next, ¬Hit lock c :=
        fun c hc hit => not_hit_of_before (.inr (hbehind c hc hit.1)) hit
      have hw : Walked lock fresh (settle lock) (b :: next) S freed (b :: next) S freed := .none hnone
      have hput := Put.front hskip hw (by simp [hits_of_not_hit hnone]) hbehind
      simpa [hits_of_not_hit hnone, Lockf.taking] using hput
  | @overlap b next hid hov =>
      have hit : Hit lock b := ⟨hid, hov⟩
      have hbv := hv' b (by simp)
      have hvn : ∀ c ∈ next, c.Valid := fun c hc => hv' c (List.mem_cons_of_mem _ hc)
      have hsn : Sorted next := (List.pairwise_cons.mp hs').2
      have hstn : ∀ c ∈ next, c.lfId = lock.lfId → lock.lfStart < c.lfStart := fun c hc hcid =>
        start_behind hit ((List.pairwise_cons.mp hs').1 c hc (hid.trans hcid.symm))
      -- only a lock that begins before the range can have it all
      have hwn : ∀ c ∈ next, Hit lock c → NoWrap lock c := by
        intro c hc hcit
        refine (hok' c (List.mem_cons_of_mem _ hc) hcit).resolve_right ?_
        rintro ⟨hx, -⟩
        rcases ovCase_late (hstn c hc hcit.1) with h | h | h <;> rw [h] at hx <;> cases hx
      have hlenn : next.length < (skipped ++ b :: next).length := by
        simp only [List.length_append, List.length_cons]
        omega
      -- of what is hit and not had already, nothing begins at a wrapped offset
      have hnew : (ovCase b lock = .contains → b.lfType ≠ lock.lfType) →
          ∀ c ∈ hits lock (b :: next), NoWrap lock c := by
        intro hb c hc
        obtain ⟨hc, hcit⟩ := mem_hits.mp hc
        rcases List.mem_cons.mp hc with rfl | hc
        · exact (hok' c (by simp) hit).resolve_right fun h => hb h.1 h.2
        · exact hwn c hc hcit
      cases hx : ovCase b lock with
      | noOverlap => exact (hov hx).elim
      | equal => exact Put.equal rfl hid hx
      | contains =>
          dsimp only
          split
          · rename_i hty
            exact Put.same (by simp) hid hx hty
          · rename_i hty
            have hnw := hnew (fun _ => hty) b (mem_hits.mpr ⟨by simp, hit⟩)
            have hbehind : ∀ c ∈ next, c.lfId = lock.lfId → Before lock c := fun c hc hcid =>
              before_behind ((List.pairwise_cons.mp hs').1 c hc (hid.trans hcid.symm)) (.inr (.inl hx))
            have hxc : ovCase b lock ≠ .contained := by rw [hx]; simp
            have hp : carve lock fresh b = _ := carve_contains hx
            have hcase := ovCase_contains hx
            split
            · rename_i hst
              rw [if_pos hst] at hp
              have hright : Before lock (b.woken.fromEnd lock) :=
                before_behind_range hbv hl hnw (by omega) rfl
              have hput : Put lock fresh (skipped ++ b :: next) S freed _ :=
                Put.between [] [b.woken.fromEnd lock] hskip hit hxc hnw hp (by simp) (by simp)
                  (by simpa using hright) hbehind
              exact hput
            · rename_i hst
              rw [if_neg hst] at hp
              obtain ⟨hleft, hright⟩ := lfSplit_sides fresh hbv hl hnw hcase hst
              have hput : Put lock fresh (skipped ++ b :: next) S freed _ :=
                Put.between _ _ hskip hit hxc hnw hp (lfSplit_ne_nil _ _ _) hleft hright hbehind
              simpa using hput
      | contained =>
          have hb := hnew (by rw [hx]; simp)
          obtain ⟨tail, S', freed', heq, hw⟩ := setLoop_linked fresh skipped.reverse []
            (absorb lock b) (settle lock b S) (b.addr :: freed) hlenn hvn hsn
            (by rw [absorb_lfId, absorb_lfStart]; exact hstn)
          rw [hits_absorb, absorb_taking hx, ← hits_cons_hit hit, List.reverse_reverse] at heq
          have hw := hw.of_absorb
          have ha : ∀ c ∈ tail, c.lfId = lock.lfId → Before lock c := by
            rw [hw.tail]
            exact tail_behind hvn hl hwn hstn
          dsimp only
          rw [absorb_settle hx]
          have hput := Put.front hskip (.more hit (carve_contained hx) mem_freed_gone hw) hb ha
          exact heq ▸ hput
      | startsBefore =>
          have hb := hnew (by rw [hx]; simp)
          have hnt : ¬Takes lock b := not_takes (by rw [hx]; simp)
          obtain ⟨tail, S', freed', heq, hw⟩ := setLoop_linked fresh
            (b.woken.upTo lock :: skipped.reverse) [] lock (settle lock b S) freed hlenn hvn hsn hstn
          have ha : ∀ c ∈ tail, c.lfId = lock.lfId → Before lock c := by
            rw [hw.tail]
            exact tail_behind hvn hl hwn hstn
          have hcase := ovCase_startsBefore hx
          have hput := Put.behind [b.woken.upTo lock] hskip
            (.more hit (carve_startsBefore hx) (mem_freed_kept (by simp)) hw) hb
            (by simpa using fun _ => upTo_before hbv hl hcase) ha
          rw [hits_cons_hit hit, taking_cons_of_not _ hnt] at hput
          rw [settle_of_not hnt] at heq
          dsimp only
          rw [heq]
          simpa using hput
      | endsAfter =>
          have hnw := hnew (by rw [hx]; simp) b (mem_hits.mpr ⟨by simp, hit⟩)
          have hbehind : ∀ c ∈ next, c.lfId = lock.lfId → Before lock c := fun c hc hcid =>
            before_behind ((List.pairwise_cons.mp hs').1 c hc (hid.trans hcid.symm)) (.inr (.inr hx))
          have hright : Before lock (b.woken.fromEnd lock) :=
            before_behind_range hbv hl hnw (ovCase_endsAfter hx) rfl
          have hput : Put lock fresh (skipped ++ b :: next) S freed _ :=
            Put.between [] [b.woken.fromEnd lock] hskip hit (by rw [hx]; simp) hnw (carve_endsAfter hx)
              (by simp) (by simp) (by simpa using hright) hbehind
          simpa using hput
      | panics => exact (ovCase_ne_panics hx).elim

end Places

end Set

end Obsd.Lf
