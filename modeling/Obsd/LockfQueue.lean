import Obsd.LockfShape

/-!
# Who waits on whom

A request that sleeps is queued on a lock of another owner that is in its
way, and its `lf_next` points to that lock (`QueueOk`). Whenever a lock is
cut or given back its waiters are woken, or moved to the lock that takes
its place, so this is kept by everything `lf_setlock` and `lf_clearlock`
do to a list in order.
-/

namespace Obsd.Lf

/-! ## Waiters of the locks hit -/

/-- The sleeper with another `lf_next`; without one it does not sleep. -/
def Sleeper.redirect (n : Option Nat) (r : Sleeper) : Sleeper :=
  { r with lfNext := n, wchan := r.wchan && n.isSome }

/-- Redirect the sleeper, if it is queued on `b`. -/
def Sleeper.leave (fate : Lockf → Option Nat) (b : Lockf) (r : Sleeper) : Sleeper :=
  if r.lock.addr ∈ b.lfBlkhd then r.redirect (fate b) else r

/-- The same for all of `bs` in turn. -/
def Sleeper.leaveAll (fate : Lockf → Option Nat) (bs : List Lockf) (r : Sleeper) : Sleeper :=
  bs.foldl (fun r b => r.leave fate b) r

/-- Where the waiters on a lock hit by `lock` go. -/
def fate (lock b : Lockf) : Option Nat := if Takes lock b then some lock.addr else none

section Leave

variable {f : Lockf → Option Nat} {r : Sleeper} {b : Lockf} {bs : List Lockf}

@[simp] theorem Sleeper.leave_lock : (r.leave f b).lock = r.lock := by
  unfold Sleeper.leave
  split <;> rfl

@[simp] theorem Sleeper.leave_proc : (r.leave f b).proc = r.proc := by
  unfold Sleeper.leave
  split <;> rfl

theorem Sleeper.leaveAll_same : (r.leaveAll f bs).lock = r.lock ∧ (r.leaveAll f bs).proc = r.proc := by
  induction bs generalizing r with
  | nil => exact ⟨rfl, rfl⟩
  | cons b bs ih =>
      have h : (r.leave f b).leaveAll f bs = r.leaveAll f (b :: bs) := rfl
      rw [← h, ih.1, ih.2]
      exact ⟨Sleeper.leave_lock, Sleeper.leave_proc⟩

theorem Sleeper.leaveAll_of_not (h : ∀ b ∈ bs, r.lock.addr ∉ b.lfBlkhd) : r.leaveAll f bs = r := by
  induction bs with
  | nil => rfl
  | cons b bs ih =>
      obtain ⟨h1, h2⟩ := List.forall_mem_cons.mp h
      have hb : r.leave f b = r := if_neg h1
      have hc : r.leaveAll f (b :: bs) = (r.leave f b).leaveAll f bs := rfl
      rw [hc, hb, ih h2]

theorem Sleeper.redirect_redirect (n m : Option Nat) (r : Sleeper) (h : n = m) :
    (r.redirect n).redirect m = r.redirect m := by
  subst h
  cases r with
  | mk proc lock lfNext wchan => cases wchan <;> cases n <;> rfl

/-- A sleeper queued on one lock of `bs` only goes where the waiters of that one go. -/
theorem Sleeper.leaveAll_of_mem (hb : b ∈ bs) (hr : r.lock.addr ∈ b.lfBlkhd)
    (h : ∀ c ∈ bs, r.lock.addr ∈ c.lfBlkhd → f c = f b) : r.leaveAll f bs = r.redirect (f b) := by
  induction bs generalizing r b with
  | nil => cases hb
  | cons c bs ih =>
      obtain ⟨h1, h2⟩ := List.forall_mem_cons.mp h
      have hc : r.leaveAll f (c :: bs) = (r.leave f c).leaveAll f bs := rfl
      rw [hc]
      by_cases hin : r.lock.addr ∈ c.lfBlkhd
      · have hl : r.leave f c = r.redirect (f b) := by
          rw [Sleeper.leave, if_pos hin, h1 hin]
        rw [hl]
        by_cases hbs : ∃ d ∈ bs, r.lock.addr ∈ d.lfBlkhd
        · obtain ⟨d, hd, hrd⟩ := hbs
          have hdb : f d = f b := h2 d hd hrd
          have hall : ∀ e ∈ bs, r.lock.addr ∈ e.lfBlkhd → f e = f d :=
            fun e he hre => (h2 e he hre).trans hdb.symm
          have hrest : (r.redirect (f b)).leaveAll f bs = (r.redirect (f b)).redirect (f d) :=
            ih hd hrd hall
          rw [hrest, Sleeper.redirect_redirect _ _ _ hdb.symm, hdb]
        · have hnot : ∀ d ∈ bs, (r.redirect (f b)).lock.addr ∉ d.lfBlkhd :=
            fun d hd hrd => hbs ⟨d, hd, hrd⟩
          exact Sleeper.leaveAll_of_not hnot
      · have hl : r.leave f c = r := if_neg hin
        rw [hl]
        rcases List.mem_cons.mp hb with rfl | hb
        · exact (hin hr).elim
        · exact ih hb hr h2

theorem settle_eq (lock b : Lockf) (S : List Sleeper) :
    settle lock b S = S.map (Sleeper.leave (fate lock) b) := by
  unfold settle
  split
  · rename_i ht
    refine List.map_congr_left fun r _ => ?_
    simp [Sleeper.leave, Sleeper.redirect, fate, ht]
  · rename_i ht
    refine List.map_congr_left fun r _ => ?_
    simp [Sleeper.leave, Sleeper.redirect, fate, ht]

theorem lfWakelock_eq (b : Lockf) (S : List Sleeper) :
    lfWakelock b S = S.map (Sleeper.leave (fun _ => none) b) := by
  refine List.map_congr_left fun r _ => ?_
  simp [Sleeper.leave, Sleeper.redirect]

theorem foldl_leave {act : Lockf → List Sleeper → List Sleeper}
    (h : ∀ b S, act b S = S.map (Sleeper.leave f b)) (bs : List Lockf) (S : List Sleeper) :
    bs.foldl (fun S b => act b S) S = S.map (Sleeper.leaveAll f bs) := by
  induction bs generalizing S with
  | nil => exact (List.map_id S).symm
  | cons b bs ih =>
      rw [List.foldl_cons, ih, h, List.map_map]
      rfl

end Leave

/-! ## The queues of a file -/

/-- Every request that is queued is queued where its `lf_next` says, on a lock that
blocks it, and a process sleeps only while it is queued. -/
structure QueueOk (l : List Lockf) (S : List Sleeper) : Prop where
  queued : ∀ b ∈ l, ∀ a ∈ b.lfBlkhd, ∃ r ∈ S, r.lock.addr = a ∧ r.lfNext = some b.addr
  waits : ∀ r ∈ S, ∀ a, r.lfNext = some a →
    ∃ b ∈ l, b.addr = a ∧ r.lock.addr ∈ b.lfBlkhd ∧ Blocks r.lock b
  nodup : ∀ b ∈ l, b.lfBlkhd.Nodup
  asleep : ∀ r ∈ S, r.wchan = true → r.lfNext.isSome = true

section Queue

variable {l : List Lockf} {S : List Sleeper} {lock : Lockf} {fresh : Nat}
  (hq : QueueOk l S) (hal : (l.map (·.addr)).Nodup) (haS : (S.map (·.lock.addr)).Nodup)

include hq haS in
/-- A request is queued on one lock only. -/
theorem QueueOk.addr_eq {b c : Lockf} (hb : b ∈ l) (hc : c ∈ l) {a : Nat} (hab : a ∈ b.lfBlkhd)
    (hac : a ∈ c.lfBlkhd) : b.addr = c.addr := by
  obtain ⟨r, hr, rfl, hrb⟩ := hq.queued b hb a hab
  obtain ⟨r', hr', hrr, hrc⟩ := hq.queued c hc r.lock.addr hac
  have hsame : r' = r := List.inj_on_of_nodup_map haS hr' hr hrr
  subst hsame
  rw [hrb] at hrc
  exact Option.some.inj hrc

include hq hal haS

theorem QueueOk.unique {b c : Lockf} (hb : b ∈ l) (hc : c ∈ l) {a : Nat} (hab : a ∈ b.lfBlkhd)
    (hac : a ∈ c.lfBlkhd) : b = c :=
  List.inj_on_of_nodup_map hal hb hc (hq.addr_eq haS hb hc hab hac)

/-- The waiters on a lock that is not hit stay. -/
theorem QueueOk.leave_other (f : Lockf → Option Nat) {b : Lockf} (hb : b ∈ l) (hit : ¬Hit lock b)
    {r : Sleeper} (hr : r.lock.addr ∈ b.lfBlkhd) : r.leaveAll f (hits lock l) = r := by
  refine Sleeper.leaveAll_of_not fun c hc hrc => ?_
  obtain ⟨hc, hcit⟩ := mem_hits.mp hc
  exact hit (hq.unique hal haS hb hc hr hrc ▸ hcit)

/-- Those on a lock that is hit go where it sends them. -/
theorem QueueOk.leave_hit (f : Lockf → Option Nat) {b : Lockf} (hb : b ∈ l) (hit : Hit lock b)
    {r : Sleeper} (hr : r.lock.addr ∈ b.lfBlkhd) :
    r.leaveAll f (hits lock l) = r.redirect (f b) := by
  refine Sleeper.leaveAll_of_mem (mem_hits.mpr ⟨hb, hit⟩) hr fun c hc hrc => ?_
  rw [hq.unique hal haS hb (mem_hits.mp hc).1 hr hrc]

/-- What becomes of a sleeper. -/
theorem QueueOk.leave_cases (f : Lockf → Option Nat) (lock : Lockf) (r : Sleeper) :
    (r.leaveAll f (hits lock l) = r ∧ ∀ b ∈ hits lock l, r.lock.addr ∉ b.lfBlkhd)
      ∨ ∃ b ∈ hits lock l, r.lock.addr ∈ b.lfBlkhd
          ∧ r.leaveAll f (hits lock l) = r.redirect (f b) := by
  by_cases h : ∃ b ∈ hits lock l, r.lock.addr ∈ b.lfBlkhd
  · obtain ⟨b, hb, hr⟩ := h
    obtain ⟨hbl, hit⟩ := mem_hits.mp hb
    exact .inr ⟨b, hb, hr, hq.leave_hit hal haS f hbl hit hr⟩
  · have hnot : ∀ b ∈ hits lock l, r.lock.addr ∉ b.lfBlkhd := fun b hb hr => h ⟨b, hb, hr⟩
    exact .inl ⟨Sleeper.leaveAll_of_not hnot, hnot⟩

/-- A sleeper points to a lock that was not hit, or goes where one that was sends
it. -/
theorem QueueOk.leave_waits (f : Lockf → Option Nat) (lock : Lockf) {r : Sleeper} (hr : r ∈ S)
    {a : Nat} (ha : (r.leaveAll f (hits lock l)).lfNext = some a) :
    (∃ b ∈ l, ¬Hit lock b ∧ b.addr = a ∧ r.lock.addr ∈ b.lfBlkhd ∧ Blocks r.lock b)
      ∨ ∃ b ∈ hits lock l, f b = some a ∧ r.lock.addr ∈ b.lfBlkhd ∧ Blocks r.lock b := by
  rcases hq.leave_cases hal haS f lock r with ⟨heq, hnot⟩ | ⟨b, hb, hrb, heq⟩
  · rw [heq] at ha
    obtain ⟨b, hb, hba, hrb, hblk⟩ := hq.waits r hr a ha
    exact .inl ⟨b, hb, fun hit => hnot b (mem_hits.mpr ⟨hb, hit⟩) hrb, hba, hrb, hblk⟩
  · rw [heq] at ha
    obtain ⟨r', hr', hrr, hn⟩ := hq.queued b (mem_hits.mp hb).1 _ hrb
    obtain rfl : r' = r := List.inj_on_of_nodup_map haS hr' hr hrr
    obtain ⟨c, hc, hcb, -, hblk⟩ := hq.waits r' hr' b.addr hn
    obtain rfl : c = b := List.inj_on_of_nodup_map hal hc (mem_hits.mp hb).1 hcb
    exact .inr ⟨c, hb, ha, hrb, hblk⟩

theorem QueueOk.leave_asleep (f : Lockf → Option Nat) (lock : Lockf) {r : Sleeper} (hr : r ∈ S)
    (hw : (r.leaveAll f (hits lock l)).wchan = true) :
    (r.leaveAll f (hits lock l)).lfNext.isSome = true := by
  rcases hq.leave_cases hal haS f lock r with ⟨heq, -⟩ | ⟨b, -, -, heq⟩
  · rw [heq] at hw ⊢
    exact hq.asleep r hr hw
  · rw [heq] at hw ⊢
    exact (Bool.and_eq_true_iff.mp hw).2

variable (hv : ∀ b ∈ l, b.Valid) (hl : lock.Ranged) (hw : ∀ b ∈ l, Hit lock b → NoWrap lock b)

include hv hl hw

/-- The locks left have the waiters they had, or none. -/
theorem QueueOk.carve_queued (f : Lockf → Option Nat) {c : Lockf} (hc : c ∈ carveAll lock fresh l)
    {a : Nat} (ha : a ∈ c.lfBlkhd) :
    ∃ r ∈ S.map (Sleeper.leaveAll f (hits lock l)), r.lock.addr = a ∧ r.lfNext = some c.addr := by
  rcases mem_carveAll hv hl hw hc with ⟨hcl, hit⟩ | ⟨b, -, -, hr⟩
  · obtain ⟨r, hr, rfl, hn⟩ := hq.queued c hcl a ha
    refine ⟨r, List.mem_map.mpr ⟨r, hr, ?_⟩, rfl, hn⟩
    exact hq.leave_other hal haS f hcl hit ha
  · rw [hr.lfBlkhd] at ha
    cases ha

omit hal haS in
theorem QueueOk.carve_nodup {c : Lockf} (hc : c ∈ carveAll lock fresh l) : c.lfBlkhd.Nodup := by
  rcases mem_carveAll hv hl hw hc with ⟨hcl, -⟩ | ⟨b, -, -, hr⟩
  · exact hq.nodup c hcl
  · rw [hr.lfBlkhd]
    exact List.nodup_nil

omit hq hal haS hv hl hw in
theorem mem_carveAll_of_not_hit {b : Lockf} (hb : b ∈ l) (hit : ¬Hit lock b) :
    b ∈ carveAll lock fresh l := by
  refine List.mem_flatMap.mpr ⟨b, hb, ?_⟩
  rw [carveOwn, if_neg hit]
  exact List.mem_singleton_self _

/-- Carving keeps the queues, if all waiters on the locks hit are woken. -/
theorem QueueOk.clear :
    QueueOk (carveAll lock fresh l) (S.map (Sleeper.leaveAll (fun _ => none) (hits lock l))) := by
  refine ⟨?_, ?_, ?_, ?_⟩
  · intro c hc a ha
    exact hq.carve_queued hal haS hv hl hw _ hc ha
  · intro r' hr' a ha
    obtain ⟨r, hr, rfl⟩ := List.mem_map.mp hr'
    rcases hq.leave_waits hal haS _ lock hr ha with ⟨b, hb, hit, hba, hrb, hblk⟩ | ⟨b, -, hf, -⟩
    · refine ⟨b, mem_carveAll_of_not_hit hb hit, hba, ?_, ?_⟩
      · rw [Sleeper.leaveAll_same.1]
        exact hrb
      · rw [Sleeper.leaveAll_same.1]
        exact hblk
    · cases hf
  · intro c hc
    exact hq.carve_nodup hv hl hw hc
  · intro r' hr' hwc
    obtain ⟨r, hr, rfl⟩ := List.mem_map.mp hr'
    exact hq.leave_asleep hal haS _ lock hr hwc

omit hq hal haS hv hl hw in
/-- A lock that takes the place of another blocks whom that one blocked. -/
theorem Blocks.taken {r b : Lockf} {bs : List Lockf} (hr : r.Valid) (hb : b.Valid) (hit : Hit lock b)
    (ht : Takes lock b) (hty : lock.lfType ≠ .unlck) (h : Blocks r b) : Blocks r (lock.taking bs) := by
  obtain ⟨h1, h2, h3⟩ := h
  refine ⟨hit.1 ▸ h1, ?_, ?_⟩
  · rw [Ne, ovCase_noOverlap] at h2 ⊢
    obtain ⟨x, hx, hrx⟩ := exists_common hb hr h2
    have hlx : (lock.taking bs).Covers x := by
      have hc := ht.1
      unfold ovCase at hc
      dsimp only at hc
      split_ifs at hc with g0 g1 g2 g3
      obtain ⟨hx1, hx2⟩ := hx
      exact ⟨by show lock.lfStart ≤ x; omega, by show lock.lfEnd = -1 ∨ x ≤ lock.lfEnd; omega⟩
    rintro (h | h)
    · exact h.no_common hlx hrx
    · exact h.no_common hrx hlx
  · rcases h3 with h3 | h3
    · exact .inl h3
    · refine .inr ?_
      have hd := ht.2
      simp only [downgrades, h3, and_true, decide_eq_false_iff_not] at hd
      show lock.lfType = .wrlck
      cases hlt : lock.lfType with
      | rdlck => exact (hd hlt).elim
      | unlck => exact (hty hlt).elim
      | wrlck => rfl

/-- So does putting the lock where the range was, if it takes over the waiters of
those it absorbs. -/
theorem QueueOk.insert {before after : List Lockf} (heq : before ++ after = carveAll lock fresh l)
    (hbl : lock.lfBlkhd = []) (hty : lock.lfType ≠ .unlck) (hreq : ∀ r ∈ S, r.lock.Valid) :
    QueueOk (before ++ lock.taking (hits lock l) :: after)
      (S.map (Sleeper.leaveAll (fate lock) (hits lock l))) := by
  have hmem : ∀ c, c ∈ before ++ lock.taking (hits lock l) :: after ↔
      c = lock.taking (hits lock l) ∨ c ∈ carveAll lock fresh l := by
    intro c
    rw [← heq]
    simp only [List.mem_append, List.mem_cons]
    tauto
  have htaking : (lock.taking (hits lock l)).lfBlkhd
      = (hits lock l).flatMap fun b => if Takes lock b then b.lfBlkhd else [] := by
    rw [Lockf.taking, hbl, List.nil_append]
  refine ⟨?_, ?_, ?_, ?_⟩
  · intro c hc a ha
    rcases (hmem c).mp hc with rfl | hc
    · rw [htaking] at ha
      obtain ⟨b, hb, hab⟩ := List.mem_flatMap.mp ha
      split at hab
      · rename_i ht
        obtain ⟨hbl, hit⟩ := mem_hits.mp hb
        obtain ⟨r, hr, rfl, -⟩ := hq.queued b hbl a hab
        refine ⟨_, List.mem_map.mpr ⟨r, hr, rfl⟩, ?_, ?_⟩
        · rw [Sleeper.leaveAll_same.1]
        · rw [hq.leave_hit hal haS _ hbl hit hab]
          exact if_pos ht
      · cases hab
    · exact hq.carve_queued hal haS hv hl hw _ hc ha
  · intro r' hr' a ha
    obtain ⟨r, hr, rfl⟩ := List.mem_map.mp hr'
    rw [Sleeper.leaveAll_same.1]
    rcases hq.leave_waits hal haS _ lock hr ha with ⟨b, hb, hit, hba, hrb, hblk⟩ | ⟨b, hb, hf, hrb, hblk⟩
    · exact ⟨b, (hmem b).mpr (.inr (mem_carveAll_of_not_hit hb hit)), hba, hrb, hblk⟩
    · obtain ⟨hbl, hit⟩ := mem_hits.mp hb
      unfold fate at hf
      split at hf
      · rename_i ht
        refine ⟨_, (hmem _).mpr (.inl rfl), Option.some.inj hf, ?_, ?_⟩
        · rw [htaking]
          exact List.mem_flatMap.mpr ⟨b, hb, by rw [if_pos ht]; exact hrb⟩
        · exact hblk.taken (hreq r hr) (hv b hbl) hit ht hty
      · cases hf
  · intro c hc
    rcases (hmem c).mp hc with rfl | hc
    · rw [htaking, List.nodup_flatMap]
      refine ⟨?_, ?_⟩
      · intro b hb
        split
        · exact hq.nodup b (mem_hits.mp hb).1
        · exact List.nodup_nil
      · have hne : (hits lock l).Pairwise fun b c => b.addr ≠ c.addr := by
          exact (List.pairwise_map.mp hal).sublist List.filter_sublist
        refine hne.imp_of_mem ?_
        intro b c hb hc hbc a hab hac
        dsimp only at hab hac
        split at hab
        · split at hac
          · exact hbc (hq.addr_eq haS (mem_hits.mp hb).1 (mem_hits.mp hc).1 hab hac)
          · cases hac
        · cases hab
    · exact hq.carve_nodup hv hl hw hc
  · intro r' hr' hwc
    obtain ⟨r, hr, rfl⟩ := List.mem_map.mp hr'
    exact hq.leave_asleep hal haS _ lock hr hwc

end Queue

section Change

variable {S : List Sleeper} {before after : List Lockf} {b b' : Lockf}

/-- A lock nobody waits on may be added. -/
theorem QueueOk.add (hq : QueueOk (before ++ after) S) (hbl : b.lfBlkhd = []) :
    QueueOk (before ++ b :: after) S := by
  have hmem : ∀ c, c ∈ before ++ b :: after ↔ c = b ∨ c ∈ before ++ after := by
    intro c
    simp only [List.mem_append, List.mem_cons]
    tauto
  refine ⟨?_, ?_, ?_, hq.asleep⟩
  · intro c hc a ha
    rcases (hmem c).mp hc with rfl | hc
    · rw [hbl] at ha
      cases ha
    · exact hq.queued c hc a ha
  · intro r hr a ha
    obtain ⟨c, hc, h⟩ := hq.waits r hr a ha
    exact ⟨c, (hmem c).mpr (.inr hc), h⟩
  · intro c hc
    rcases (hmem c).mp hc with rfl | hc
    · rw [hbl]
      exact List.nodup_nil
    · exact hq.nodup c hc

/-- A lock may be changed, if it still blocks whom it blocked. -/
theorem QueueOk.change (hq : QueueOk (before ++ b :: after) S) (haddr : b'.addr = b.addr)
    (hbl : b'.lfBlkhd = b.lfBlkhd) (hblk : ∀ r ∈ S, Blocks r.lock b → Blocks r.lock b') :
    QueueOk (before ++ b' :: after) S := by
  have hmem : ∀ {d c : Lockf}, c ∈ before ++ d :: after ↔ c = d ∨ c ∈ before ++ after := by
    intro d c
    simp only [List.mem_append, List.mem_cons]
    tauto
  refine ⟨?_, ?_, ?_, hq.asleep⟩
  · intro c hc a ha
    rcases hmem.mp hc with rfl | hc
    · rw [haddr]
      exact hq.queued b (hmem.mpr (.inl rfl)) a (hbl ▸ ha)
    · exact hq.queued c (hmem.mpr (.inr hc)) a ha
  · intro r hr a ha
    obtain ⟨c, hc, h1, h2, h3⟩ := hq.waits r hr a ha
    rcases hmem.mp hc with rfl | hc
    · exact ⟨b', hmem.mpr (.inl rfl), haddr.trans h1, hbl ▸ h2, hblk r hr h3⟩
    · exact ⟨c, hmem.mpr (.inr hc), h1, h2, h3⟩
  · intro c hc
    rcases hmem.mp hc with rfl | hc
    · rw [hbl]
      exact hq.nodup b (hmem.mpr (.inl rfl))
    · exact hq.nodup c (hmem.mpr (.inr hc))

end Change

/-! ## Addresses -/

section Addrs

variable {l : List Lockf} {lock : Lockf} {fresh : Nat}

section Carve

variable (hv : ∀ b ∈ l, b.Valid) (hl : lock.Ranged) (hw : ∀ b ∈ l, Hit lock b → NoWrap lock b)

include hv hl hw

/-- Only the lock the range lies in the middle of is split. -/
theorem carveOwn_addr {b c : Lockf} (hb : b ∈ l) (hc : c ∈ carveOwn lock fresh b) :
    c.addr = b.addr ∨ (c.addr = fresh ∧ Hit lock b ∧ b.lfStart < lock.lfStart ∧ Before lock c) := by
  unfold carveOwn at hc
  split at hc
  · rename_i hit
    rcases (mem_carve (hv b hb) hl (hw b hb hit) hit hc).side with ⟨-, h⟩ | ⟨hbef, h | ⟨h1, h2⟩⟩
    · exact .inl h
    · exact .inl h
    · exact .inr ⟨h1, hit, h2, hbef⟩
  · obtain rfl := List.mem_singleton.mp hc
    exact .inl rfl

theorem carveAll_addr {c : Lockf} (hc : c ∈ carveAll lock fresh l) :
    c.addr ∈ l.map (·.addr) ∨ c.addr = fresh := by
  obtain ⟨b, hb, hcb⟩ := List.mem_flatMap.mp hc
  rcases carveOwn_addr hv hl hw hb hcb with h | h
  · exact .inl (List.mem_map.mpr ⟨b, hb, h.symm⟩)
  · exact .inr h.1

theorem carveAll_addr_nodup (hs : Sorted l) (hal : (l.map (·.addr)).Nodup)
    (hfresh : fresh ∉ l.map (·.addr)) : ((carveAll lock fresh l).map (·.addr)).Nodup := by
  have hne : ∀ b ∈ l, b.addr ≠ fresh := fun b hb h => hfresh (List.mem_map.mpr ⟨b, hb, h⟩)
  rw [List.Nodup, List.pairwise_map]
  refine List.pairwise_flatMap.mpr ⟨?_, ?_⟩
  · intro b hb
    unfold carveOwn
    split
    · unfold carve
      split
      · split
        · have : b.addr ≠ fresh := hne b hb
          simpa [Lockf.upTo, Lockf.woken, Lockf.splitlock] using this
        · simp
      · split <;> simp
    · simp
  · have hboth := (List.pairwise_map.mp hal).and hs
    refine hboth.imp_of_mem ?_
    rintro a b ha hb ⟨hab, hsab⟩ c hc d hd heq
    rcases carveOwn_addr hv hl hw ha hc with h1 | ⟨h1, hita, hsta, -⟩
    · rcases carveOwn_addr hv hl hw hb hd with h2 | ⟨h2, -⟩
      · exact hab (h1.symm.trans (heq.trans h2))
      · exact hne a ha (h1.symm.trans (heq.trans h2))
    · rcases carveOwn_addr hv hl hw hb hd with h2 | ⟨h2, hitb, hstb, -⟩
      · exact hne b hb (h2.symm.trans (heq.symm.trans h1))
      · -- both would hold the first byte of the range
        have hbefore := hsab (hita.1.trans hitb.1.symm)
        have := start_behind hita hbefore
        omega

/-- A lock of which nothing is left has left the list. -/
theorem carveAll_gone (hal : (l.map (·.addr)).Nodup) (hfresh : fresh ∉ l.map (·.addr)) {b : Lockf}
    (hb : b ∈ hits lock l) (hnil : carve lock fresh b = []) :
    b.addr ∉ (carveAll lock fresh l).map (·.addr) := by
  intro hmem
  obtain ⟨c, hc, hcb⟩ := List.mem_map.mp hmem
  obtain ⟨hbl, hit⟩ := mem_hits.mp hb
  obtain ⟨d, hd, hcd⟩ := List.mem_flatMap.mp hc
  rcases carveOwn_addr hv hl hw hd hcd with h | h
  · obtain rfl : d = b := List.inj_on_of_nodup_map hal hd hbl (h.symm.trans hcb)
    rw [carveOwn, if_pos hit, hnil] at hcd
    cases hcd
  · exact hfresh (h.1 ▸ hcb ▸ List.mem_map.mpr ⟨b, hbl, rfl⟩)

end Carve

end Addrs

end Obsd.Lf
