import Obsd.LockfMode

/-!
# Runs of the lock manager

Any number of processes call `lf_advlock` on any number of files, sleep,
are woken, or are interrupted. `FileInv` is what every step keeps of a
file; `hand` is the request a call has in hand between two of its parts,
which no list holds.
-/

namespace Obsd.Lf

/-! ## The invariant of a file -/

/-- Locks of different owners meet only if all of them are for reading. -/
def Compatible (l : List Lockf) : Prop :=
  ∀ o o' x t t', o ≠ o' → Holds l o x t → Holds l o' x t' → t = .rdlck ∧ t' = .rdlck

/-- The addresses in use. -/
def File.addrs (F : File) (hand : List Lockf) : List Nat :=
  F.locks.map (·.addr) ++ (F.sleepers.map (·.lock.addr) ++ hand.map (·.addr))

/-- No address is in use twice, none in use has been given back, and `next` is new. -/
structure AddrOk (addrs : List Nat) (next : Nat) (freed : List Nat) : Prop where
  nodup : addrs.Nodup
  live : ∀ a ∈ addrs, a < next ∧ a ∉ freed
  freed : ∀ a ∈ freed, a < next

/-- Addresses come into use when they are new, and are given back when they go out
of use. -/
theorem AddrOk.change {as as' freed freed' : List Nat} {n n' : Nat} (h : AddrOk as n freed)
    (hle : n ≤ n') (hnodup : as'.Nodup) (hmem : ∀ a ∈ as', a ∈ as ∨ (a = n ∧ n < n'))
    (hfreed : ∀ a ∈ freed', a ∈ freed ∨ (a ∈ as ∧ a ∉ as')) : AddrOk as' n' freed' := by
  refine ⟨hnodup, ?_, ?_⟩
  · intro a ha
    constructor
    · rcases hmem a ha with h1 | h1
      · have := (h.live a h1).1
        omega
      · omega
    · intro hf
      rcases hfreed a hf with hf | ⟨-, hn⟩
      · rcases hmem a ha with h1 | ⟨rfl, -⟩
        · exact (h.live a h1).2 hf
        · have := h.freed a hf
          omega
      · exact hn ha
  · intro a ha
    rcases hfreed a ha with hf | ⟨hf, -⟩
    · have := h.freed a hf
      omega
    · have := (h.live a hf).1
      omega

theorem AddrOk.perm {as as' freed : List Nat} {n : Nat} (h : AddrOk as n freed) (hp : as.Perm as') :
    AddrOk as' n freed :=
  ⟨hp.nodup_iff.mp h.nodup, fun a ha => h.live a (hp.mem_iff.mpr ha), h.freed⟩

theorem AddrOk.alloc {as freed : List Nat} {n : Nat} (h : AddrOk as n freed) :
    AddrOk (n :: as) (n + 1) freed := by
  have hnew : n ∉ as := fun hmem => by
    have := (h.live n hmem).1
    omega
  refine h.change (Nat.le_succ _) (List.nodup_cons.mpr ⟨hnew, h.nodup⟩) ?_ fun a ha => .inl ha
  intro a ha
  rcases List.mem_cons.mp ha with rfl | ha
  · exact .inr ⟨rfl, Nat.lt_succ_self _⟩
  · exact .inl ha

theorem AddrOk.free {as freed : List Nat} {a n n' : Nat} (h : AddrOk (a :: as) n freed)
    (hle : n ≤ n') : AddrOk as n' (a :: freed) := by
  obtain ⟨hnot, hnodup⟩ := List.nodup_cons.mp h.nodup
  refine h.change hle hnodup (fun b hb => .inl (List.mem_cons_of_mem _ hb)) ?_
  intro b hb
  rcases List.mem_cons.mp hb with rfl | hb
  · exact .inr ⟨List.mem_cons_self .., hnot⟩
  · exact .inl hb

/-- Carving uses one new address at most, and gives back those of the locks of which
nothing is left. -/
theorem AddrOk.carve {l : List Lockf} {lock : Lockf} {rest freed freed' : List Nat} {n : Nat}
    (h : AddrOk (l.map (·.addr) ++ rest) n freed) (hv : ∀ b ∈ l, b.Valid) (hl : lock.Ranged)
    (hok : ClearOk lock l) (hs : Sorted l)
    (hfreed : ∀ a, a ∈ freed' ↔ a ∈ freed ∨ ∃ b ∈ hits lock l, carve lock n b = [] ∧ b.addr = a) :
    AddrOk ((carveAll lock n l).map (·.addr) ++ rest) (n + 1) freed' := by
  obtain ⟨h1, h2, h3⟩ := List.nodup_append.mp h.nodup
  have hnew : n ∉ l.map (·.addr) ++ rest := fun hmem => by
    have := (h.live n hmem).1
    omega
  have hfresh : n ∉ l.map (·.addr) := fun hmem => hnew (List.mem_append_left _ hmem)
  have haddr : ∀ a ∈ (carveAll lock n l).map (·.addr), a ∈ l.map (·.addr) ∨ a = n := by
    intro a ha
    obtain ⟨c, hc, rfl⟩ := List.mem_map.mp ha
    exact carveAll_addr hv hl hok hc
  refine h.change (Nat.le_succ _) (List.nodup_append.mpr ⟨?_, h2, ?_⟩) ?_ ?_
  · exact carveAll_addr_nodup hv hl hok hs h1 hfresh
  · intro a ha b hb hab
    subst hab
    rcases haddr a ha with ha | rfl
    · exact h3 a ha a hb rfl
    · exact hnew (List.mem_append_right _ hb)
  · intro a ha
    rcases List.mem_append.mp ha with ha | ha
    · rcases haddr a ha with ha | rfl
      · exact .inl (List.mem_append_left _ ha)
      · exact .inr ⟨rfl, Nat.lt_succ_self _⟩
    · exact .inl (List.mem_append_right _ ha)
  · intro a ha
    rcases (hfreed a).mp ha with ha | ⟨b, hb, hnil, rfl⟩
    · exact .inl ha
    · have hmem : b.addr ∈ l.map (·.addr) := List.mem_map.mpr ⟨b, (mem_hits.mp hb).1, rfl⟩
      refine .inr ⟨List.mem_append_left _ hmem, fun hin => ?_⟩
      rcases List.mem_append.mp hin with hin | hin
      · exact carveAll_gone hv hl hok h1 hfresh hb hnil hin
      · exact h3 _ hmem _ hin rfl

structure FileInv (F : File) (hand : List Lockf) : Prop where
  valid : ∀ b ∈ F.locks, b.Valid
  sorted : Sorted F.locks
  compatible : Compatible F.locks
  queue : QueueOk F.locks F.sleepers
  request : ∀ r ∈ F.sleepers, r.lock.Valid ∧ r.lock.lfBlkhd = []
  inHand : ∀ b ∈ hand, b.Ranged ∧ b.lfBlkhd = []
  addrs : AddrOk (F.addrs hand) F.next F.freed

section Inv

variable {F : File} {hand : List Lockf} {lock : Lockf}

theorem FileInv.lockAddrs (h : FileInv F hand) : (F.locks.map (·.addr)).Nodup :=
  (List.nodup_append.mp h.addrs.nodup).1

theorem FileInv.sleeperAddrs (h : FileInv F hand) : (F.sleepers.map (·.lock.addr)).Nodup :=
  (List.nodup_append.mp (List.nodup_append.mp h.addrs.nodup).2.1).1

/-! ## Allocating and freeing -/

theorem addrs_hand : (F.addrs [lock]).Perm (lock.addr :: F.addrs []) := by
  simp only [File.addrs, List.map_cons, List.map_nil, List.append_nil]
  rw [← List.append_assoc]
  exact List.perm_append_singleton _ _

theorem FileInv.alloc (h : FileInv F []) (hl : lock.Ranged) (haddr : lock.addr = F.next)
    (hbl : lock.lfBlkhd = []) : FileInv { F with next := F.next + 1 } [lock] := by
  refine ⟨h.valid, h.sorted, h.compatible, h.queue, h.request, by simpa using ⟨hl, hbl⟩, ?_⟩
  refine h.addrs.alloc.perm ?_
  rw [← haddr]
  exact addrs_hand.symm

theorem FileInv.free (h : FileInv F [lock]) : FileInv (lfFree lock.addr F) [] :=
  ⟨h.valid, h.sorted, h.compatible, h.queue, h.request, by simp,
    (h.addrs.perm addrs_hand).free le_rfl⟩

/-! ## Clearing and setting -/

theorem Compatible.mono {l l' : List Lockf} (h : Compatible l)
    (hsub : ∀ o x t, Holds l' o x t → Holds l o x t) : Compatible l' :=
  fun o o' x t t' hne h1 h2 => h o o' x t t' hne (hsub o x t h1) (hsub o' x t' h2)

theorem FileInv.clear (h : FileInv F [lock]) (hok : ClearOk lock F.locks) :
    FileInv (lfClearlock lock F) [lock] := by
  obtain ⟨hl, hbl⟩ := h.inHand lock (by simp)
  obtain ⟨tail, S', freed', heq, hw⟩ := lfClearlock_walked h.valid h.sorted
  obtain ⟨rfl, hS, hfreed⟩ := hw
  rw [foldl_leave lfWakelock_eq] at hS
  subst hS
  have haddrS : (F.sleepers.map (Sleeper.leaveAll (fun _ => none) (hits lock F.locks))).map
      (·.lock.addr) = F.sleepers.map (·.lock.addr) := by
    rw [List.map_map]
    refine List.map_congr_left fun r _ => ?_
    show (Sleeper.leaveAll _ _ r).lock.addr = _
    rw [Sleeper.leaveAll_same.1]
  rw [heq]
  refine ⟨carveAll_valid h.valid hl hok, carveAll_sorted h.valid hl hok h.sorted, ?_, ?_, ?_,
    by simpa using ⟨hl, hbl⟩, ?_⟩
  · refine h.compatible.mono fun o x t ht => ?_
    exact ((carveAll_holds h.valid hl hok).mp ht).1
  · exact h.queue.clear h.lockAddrs h.sleeperAddrs h.valid hl hok
  · intro r' hr'
    obtain ⟨r, hr, rfl⟩ := List.mem_map.mp hr'
    rw [Sleeper.leaveAll_same.1]
    exact h.request r hr
  · have hcarve := h.addrs.carve h.valid hl hok h.sorted hfreed
    rw [← haddrS] at hcarve
    exact hcarve

/-- Nothing that is in the way of the request. -/
theorem not_blocks_of_getblock {l : List Lockf} (h : lfGetblock lock l = none) :
    ∀ b ∈ l, ¬Blocks lock b := by
  rw [lfGetblock_eq] at h
  simpa [List.find?_eq_none] using h

/-- Where another owner has a lock, a request that is not blocked is for reading, and
so is the lock. -/
theorem readers_of_not_blocks {l : List Lockf} (hv : ∀ b ∈ l, b.Valid) (h1 : lock.lfType ≠ .unlck)
    (hfree : ∀ b ∈ l, ¬Blocks lock b) {o : Caddr} {x : Int} {t : LType} (hne : o ≠ lock.lfId)
    (hlx : lock.Covers x) (h : Holds l o x t) : lock.lfType = .rdlck ∧ t = .rdlck := by
  obtain ⟨b, hb, rfl, hbx, rfl⟩ := h
  have hnot := hfree b hb
  have hover : ovCase b lock ≠ .noOverlap := by
    rw [Ne, ovCase_noOverlap]
    rintro (h | h)
    · exact h.no_common hbx hlx
    · exact h.no_common hlx hbx
  have hw : ¬(lock.lfType = .wrlck ∨ b.lfType = .wrlck) := fun hw => hnot ⟨hne, hover, hw⟩
  rw [not_or] at hw
  have h2 := (hv b hb).type
  constructor
  · cases ht : lock.lfType with
    | rdlck => rfl
    | unlck => exact (h1 ht).elim
    | wrlck => exact (hw.1 ht).elim
  · cases ht : b.lfType with
    | rdlck => rfl
    | unlck => exact (h2 ht).elim
    | wrlck => exact (hw.2 ht).elim

theorem Compatible.put {l : List Lockf} {fresh : Nat} {S : List Sleeper} {freed : List Nat}
    {r : Placed} (hc : Compatible l) (hv : ∀ b ∈ l, b.Valid) (hl : lock.Ranged)
    (hty : lock.lfType ≠ .unlck) (hs : Sorted l) (hfree : ∀ b ∈ l, ¬Blocks lock b) (h : Put lock fresh l S freed r) : Compatible r.locks := by
  intro o o' x t t' hne h1 h2
  rw [h.holds hv hl hs] at h1 h2
  split at h1
  · rename_i hin
    obtain ⟨rfl, hlx⟩ := hin
    rw [if_neg fun h => hne h.1.symm] at h2
    rw [h1]
    exact readers_of_not_blocks hv hty hfree hne.symm hlx h2
  · split at h2
    · rename_i hin
      obtain ⟨rfl, hlx⟩ := hin
      rw [h2]
      exact (readers_of_not_blocks hv hty hfree hne hlx h1).symm
    · exact hc o o' x t t' hne h1 h2

/-! ## Placing -/

/-- The sleepers keep their requests whatever is done to the queues. -/
theorem leaveAll_addrs (f : Lockf → Option Nat) (bs : List Lockf) (S : List Sleeper) :
    (S.map (Sleeper.leaveAll f bs)).map (·.lock.addr) = S.map (·.lock.addr) := by
  rw [List.map_map]
  refine List.map_congr_left fun r _ => ?_
  show (Sleeper.leaveAll f bs r).lock.addr = _
  rw [Sleeper.leaveAll_same.1]

theorem Put.sleepers {l : List Lockf} {fresh : Nat} {S : List Sleeper} {freed : List Nat}
    {r : Placed} (h : Put lock fresh l S freed r) :
    ∃ f bs, r.sleepers = S.map (Sleeper.leaveAll f bs) := by
  cases h with
  | same => exact ⟨fun _ => none, [], (List.map_id S).symm⟩
  | @equal b =>
      split
      · exact ⟨fun _ => none, [b], lfWakelock_eq b S⟩
      · exact ⟨fun _ => none, [], (List.map_id S).symm⟩
  | carved hw => exact ⟨_, _, hw.sleepers.trans (foldl_leave (settle_eq lock) _ _)⟩

/-- A lock that only changes its type to one that is not weaker blocks whom it
blocked. -/
theorem Blocks.retyped {r b : Lockf} (hty : lock.lfType ≠ .unlck) (hd : ¬downgrades lock b = true)
    (h : Blocks r b) : Blocks r { b with lfType := lock.lfType } := by
  obtain ⟨h1, h2, h3⟩ := h
  refine ⟨h1, h2, h3.imp id fun hb => ?_⟩
  simp only [downgrades, hb, and_true, decide_eq_true_eq] at hd
  cases hlt : lock.lfType with
  | rdlck => exact (hd hlt).elim
  | unlck => exact (hty hlt).elim
  | wrlck => rfl

theorem QueueOk.put {l : List Lockf} {fresh : Nat} {S : List Sleeper} {freed : List Nat}
    {r : Placed} (hq : QueueOk l S) (hal : (l.map (·.addr)).Nodup)
    (haS : (S.map (·.lock.addr)).Nodup) (hv : ∀ b ∈ l, b.Valid) (hl : lock.Ranged)
    (hty : lock.lfType ≠ .unlck) (hbl : lock.lfBlkhd = []) (hreq : ∀ r ∈ S, r.lock.Valid) (hs : Sorted l)
    (h : Put lock fresh l S freed r) : QueueOk r.locks r.sleepers := by
  cases h with
  | same => exact hq
  | @equal b before after heq hid hx =>
      subst heq
      split
      · -- a downgrade wakes the waiters, and the lock is as good as new
        have hclear : QueueOk (carveAll lock fresh _) _ := hq.clear hal haS hv hl (clearOk_equal hs hid hx)
        rw [carveAll_equal hs hid hx, hits_equal hs hid hx] at hclear
        rw [lfWakelock_eq]
        exact hclear.add rfl
      · rename_i hd
        exact hq.change rfl rfl fun r _ h => h.retyped hty hd
  | @carved before after S' freed' hw hnew hb ha =>
      have hS : S' = _ := hw.sleepers.trans (foldl_leave (settle_eq lock) _ _)
      rw [hS]
      exact hq.insert hal haS hv hl (fun b hb hit => hnew b (mem_hits.mpr ⟨hb, hit⟩)) hw.tail hbl hty
        hreq

theorem AddrOk.put {l : List Lockf} {S : List Sleeper} {freed : List Nat} {n : Nat} {r : Placed}
    (h : AddrOk (l.map (·.addr) ++ (S.map (·.lock.addr) ++ [lock.addr])) n freed)
    (hv : ∀ b ∈ l, b.Valid) (hl : lock.Ranged) (hs : Sorted l) (hput : Put lock n l S freed r) :
    AddrOk (r.locks.map (·.addr) ++ r.sleepers.map (·.lock.addr)) (n + 1) r.freed := by
  obtain ⟨f, bs, hS⟩ := hput.sleepers
  rw [hS, leaveAll_addrs]
  have hfree : AddrOk (l.map (·.addr) ++ S.map (·.lock.addr)) (n + 1) (lock.addr :: freed) := by
    rw [← List.append_assoc] at h
    exact (h.perm (List.perm_append_singleton _ _)).free (Nat.le_succ _)
  cases hput with
  | same => exact hfree
  | @equal b before after heq =>
      subst heq
      have haddr : (if downgrades lock b then b.woken else b).addr = b.addr := by
        split <;> rfl
      simpa only [List.map_append, List.map_cons, haddr] using hfree
  | @carved before after S' freed' hw hnew =>
      have hcarve := h.carve hv hl (fun b hb hit => hnew b (mem_hits.mpr ⟨hb, hit⟩)) hs hw.freed
      rw [← hw.tail] at hcarve
      refine hcarve.perm ?_
      simp only [List.map_append, List.map_cons, List.append_assoc]
      refine List.Perm.append_left _ ?_
      rw [← List.append_assoc]
      exact List.perm_append_singleton _ _

theorem FileInv.place (h : FileInv F [lock]) (hty : lock.lfType ≠ .unlck)
    (hfree : lfGetblock lock F.locks = none)
    (hok : PlaceOk lock F.locks) : FileInv (Lf.place lock F) [] := by
  obtain ⟨hl, hbl⟩ := h.inHand lock (by simp)
  obtain ⟨r, heq, hput⟩ := place_put h.valid hl h.sorted hok
  obtain ⟨f, bs, hS⟩ := hput.sleepers
  have haddr := h.addrs.put h.valid hl h.sorted hput
  rw [heq]
  refine ⟨hput.valid h.valid hl h.sorted hty, hput.sorted h.valid hl h.sorted,
    h.compatible.put h.valid hl hty h.sorted (not_blocks_of_getblock hfree) hput, ?_, ?_, by simp, ?_⟩
  · exact h.queue.put h.lockAddrs h.sleeperAddrs h.valid hl hty hbl
      (fun r hr => (h.request r hr).1) h.sorted hput
  · intro r' hr'
    rw [hS] at hr'
    obtain ⟨r, hr, rfl⟩ := List.mem_map.mp hr'
    rw [Sleeper.leaveAll_same.1]
    exact h.request r hr
  · simpa [File.addrs] using haddr

/-! ## Going to sleep and coming back -/

/-- Only the queues are changed. -/
def Requeues (g : Lockf → Lockf) : Prop := ∀ b, ∃ q, g b = { b with lfBlkhd := q }

section Requeue

variable {g : Lockf → Lockf} {l : List Lockf} (hg : Requeues g)

include hg

theorem Requeues.addr (b : Lockf) : (g b).addr = b.addr := by
  obtain ⟨q, hq⟩ := hg b
  rw [hq]

theorem Requeues.map_addr : (l.map g).map (·.addr) = l.map (·.addr) := by
  rw [List.map_map]
  exact List.map_congr_left fun b _ => hg.addr b

theorem Requeues.valid (hv : ∀ b ∈ l, b.Valid) : ∀ b ∈ l.map g, b.Valid := by
  intro c hc
  obtain ⟨b, hb, rfl⟩ := List.mem_map.mp hc
  obtain ⟨q, hq⟩ := hg b
  rw [hq]
  exact ⟨⟨(hv b hb).start, (hv b hb).end_⟩, (hv b hb).type⟩

theorem Requeues.sorted (hs : Sorted l) : Sorted (l.map g) := by
  refine List.pairwise_map.mpr (hs.imp ?_)
  intro a b hab hid
  obtain ⟨qa, hqa⟩ := hg a
  obtain ⟨qb, hqb⟩ := hg b
  rw [hqa, hqb] at hid ⊢
  exact hab hid

theorem Requeues.holds {o : Caddr} {x : Int} {t : LType} (h : Holds (l.map g) o x t) :
    Holds l o x t := by
  obtain ⟨c, hc, hid, hcx, hty⟩ := h
  obtain ⟨b, hb, rfl⟩ := List.mem_map.mp hc
  obtain ⟨q, hq⟩ := hg b
  rw [hq] at hid hcx hty
  exact ⟨b, hb, hid, hcx, hty⟩

theorem Requeues.blocks {r b : Lockf} (h : Blocks r b) : Blocks r (g b) := by
  obtain ⟨q, hq⟩ := hg b
  rw [hq]
  exact h

end Requeue

/-- The lock with a request queued on it. -/
def Lockf.enqueued (a : Nat) (block b : Lockf) : Lockf :=
  if b.addr = block.addr then { b with lfBlkhd := b.lfBlkhd ++ [a] } else b

/-- The lock without the request of `r`. -/
def Lockf.dequeued (r : Sleeper) (b : Lockf) : Lockf :=
  if r.lfNext = some b.addr then { b with lfBlkhd := b.lfBlkhd.erase r.lock.addr } else b

theorem requeues_enqueued (a : Nat) (block : Lockf) : Requeues (Lockf.enqueued a block) := by
  intro b
  unfold Lockf.enqueued
  split
  · exact ⟨_, rfl⟩
  · exact ⟨b.lfBlkhd, rfl⟩

theorem requeues_dequeued (r : Sleeper) : Requeues (Lockf.dequeued r) := by
  intro b
  unfold Lockf.dequeued
  split
  · exact ⟨_, rfl⟩
  · exact ⟨b.lfBlkhd, rfl⟩

theorem mem_enqueued {a a' : Nat} {block b : Lockf} :
    a' ∈ (Lockf.enqueued a block b).lfBlkhd ↔ a' ∈ b.lfBlkhd ∨ (b.addr = block.addr ∧ a' = a) := by
  unfold Lockf.enqueued
  split
  · rename_i h
    simp [h]
  · rename_i h
    simp [h]

/-- A request queued on another lock, or another request, stays where it is. -/
theorem mem_dequeued {r : Sleeper} {b : Lockf} {a : Nat} (hnd : b.lfBlkhd.Nodup) :
    a ∈ (b.dequeued r).lfBlkhd
      ↔ a ∈ b.lfBlkhd ∧ ¬(r.lfNext = some b.addr ∧ a = r.lock.addr) := by
  unfold Lockf.dequeued
  split
  · rename_i h
    simp only [h, hnd.mem_erase_iff, true_and]
    exact And.comm
  · rename_i h
    simp [h]

theorem QueueOk.enqueue {l : List Lockf} {S : List Sleeper} {block : Lockf} (p : Nat)
    (hq : QueueOk l S) (hnew : lock.addr ∉ S.map (·.lock.addr)) (hb : block ∈ l)
    (hblk : Blocks lock block) :
    QueueOk (l.map (Lockf.enqueued lock.addr block)) (S ++ [⟨p, lock, some block.addr, true⟩]) := by
  have hg := requeues_enqueued lock.addr block
  refine ⟨?_, ?_, ?_, ?_⟩
  · intro c hc a ha
    obtain ⟨b, hbl, rfl⟩ := List.mem_map.mp hc
    rw [hg.addr]
    rcases mem_enqueued.mp ha with ha | ⟨haddr, rfl⟩
    · obtain ⟨r, hr, h⟩ := hq.queued b hbl a ha
      exact ⟨r, List.mem_append_left _ hr, h⟩
    · exact ⟨⟨p, lock, some block.addr, true⟩, by simp, rfl, by rw [haddr]⟩
  · intro r hr a ha
    rcases List.mem_append.mp hr with hr | hr
    · obtain ⟨b, hbl, haddr, hmem, hrb⟩ := hq.waits r hr a ha
      exact ⟨_, List.mem_map.mpr ⟨b, hbl, rfl⟩, (hg.addr b).trans haddr,
        mem_enqueued.mpr (.inl hmem), hg.blocks hrb⟩
    · obtain rfl := List.mem_singleton.mp hr
      refine ⟨_, List.mem_map.mpr ⟨block, hb, rfl⟩, (hg.addr block).trans (Option.some.inj ha), ?_,
        hg.blocks hblk⟩
      exact mem_enqueued.mpr (.inr ⟨rfl, rfl⟩)
  · intro c hc
    obtain ⟨b, hbl, rfl⟩ := List.mem_map.mp hc
    -- nobody had queued a request with the new address
    have hnot : lock.addr ∉ b.lfBlkhd := fun h => by
      obtain ⟨r, hr, haddr, -⟩ := hq.queued b hbl _ h
      exact hnew (List.mem_map.mpr ⟨r, hr, haddr⟩)
    unfold Lockf.enqueued
    split
    · rw [List.nodup_append]
      refine ⟨hq.nodup b hbl, List.nodup_singleton _, ?_⟩
      intro a ha a' ha' heq
      rw [List.mem_singleton.mp ha'] at heq
      exact hnot (heq ▸ ha)
    · exact hq.nodup b hbl
  · intro r hr hwc
    rcases List.mem_append.mp hr with hr | hr
    · exact hq.asleep r hr hwc
    · obtain rfl := List.mem_singleton.mp hr
      rfl

theorem FileInv.enqueue {block : Lockf} (p : Nat) (h : FileInv F [lock]) (hty : lock.lfType ≠ .unlck)
    (hb : block ∈ F.locks) (hblk : Blocks lock block) : FileInv (Lf.enqueue p lock block F) [] := by
  obtain ⟨hl, hbl⟩ := h.inHand lock (by simp)
  have hg := requeues_enqueued lock.addr block
  have hnew : lock.addr ∉ F.sleepers.map (·.lock.addr) := fun hmem =>
    (List.nodup_append.mp (List.nodup_append.mp h.addrs.nodup).2.1).2.2 _ hmem _ (by simp) rfl
  refine ⟨hg.valid h.valid, hg.sorted h.sorted, h.compatible.mono fun o x t => hg.holds,
    h.queue.enqueue p hnew hb hblk, ?_, by simp, ?_⟩
  · intro r hr
    rcases List.mem_append.mp hr with hr | hr
    · exact h.request r hr
    · obtain rfl := List.mem_singleton.mp hr
      exact ⟨⟨hl, hty⟩, hbl⟩
  · have haddrs : (Lf.enqueue p lock block F).addrs [] = F.addrs [lock] := by
      have := hg.map_addr (l := F.locks)
      simp only [File.addrs, Lf.enqueue, List.map_append, List.map_cons, List.map_nil,
        List.append_nil]
      exact congrArg (· ++ _) this
    rw [haddrs]
    exact h.addrs

theorem QueueOk.dequeue {l : List Lockf} {S : List Sleeper} {r : Sleeper} (hq : QueueOk l S)
    (haS : (S.map (·.lock.addr)).Nodup) (hr : r ∈ S) :
    QueueOk (l.map (Lockf.dequeued r)) (S.erase r) := by
  have hg := requeues_dequeued r
  have hnd : S.Nodup := List.Nodup.of_map _ haS
  refine ⟨?_, ?_, ?_, ?_⟩
  · intro c hc a ha
    obtain ⟨b, hb, rfl⟩ := List.mem_map.mp hc
    rw [hg.addr]
    obtain ⟨ha, hnot⟩ := (mem_dequeued (hq.nodup b hb)).mp ha
    obtain ⟨r', hr', haddr, hnext⟩ := hq.queued b hb a ha
    have hne : r' ≠ r := by
      rintro rfl
      exact hnot ⟨hnext, haddr.symm⟩
    exact ⟨r', hnd.mem_erase_iff.mpr ⟨hne, hr'⟩, haddr, hnext⟩
  · intro r' hr' a ha
    obtain ⟨hne, hr'⟩ := hnd.mem_erase_iff.mp hr'
    obtain ⟨b, hb, haddr, hmem, hblk⟩ := hq.waits r' hr' a ha
    refine ⟨_, List.mem_map.mpr ⟨b, hb, rfl⟩, (hg.addr b).trans haddr, ?_, hg.blocks hblk⟩
    refine (mem_dequeued (hq.nodup b hb)).mpr ⟨hmem, fun h => ?_⟩
    exact hne (List.inj_on_of_nodup_map haS hr' hr h.2)
  · intro c hc
    obtain ⟨b, hb, rfl⟩ := List.mem_map.mp hc
    unfold Lockf.dequeued
    split
    · exact (hq.nodup b hb).erase _
    · exact hq.nodup b hb
  · intro r' hr' hwc
    exact hq.asleep r' (List.mem_of_mem_erase hr') hwc

theorem FileInv.dequeue {r : Sleeper} (h : FileInv F []) (hr : r ∈ F.sleepers) :
    FileInv (Lf.dequeue r F) [r.lock] := by
  have hg := requeues_dequeued r
  refine ⟨hg.valid h.valid, hg.sorted h.sorted, h.compatible.mono fun o x t => hg.holds,
    h.queue.dequeue h.sleeperAddrs hr, fun r' hr' => h.request r' (List.mem_of_mem_erase hr'), ?_, ?_⟩
  · intro b hb
    obtain rfl := List.mem_singleton.mp hb
    exact ⟨(h.request r hr).1.toRanged, (h.request r hr).2⟩
  · refine h.addrs.perm ?_
    have hperm : (F.sleepers.map (·.lock.addr)).Perm
        ((F.sleepers.erase r).map (·.lock.addr) ++ [r.lock.addr]) :=
      ((List.perm_cons_erase hr).map _).trans (List.perm_append_singleton _ _).symm
    have hlocks : F.locks.map (·.addr) = (F.locks.map (Lockf.dequeued r)).map (·.addr) :=
      hg.map_addr.symm
    simp only [File.addrs, List.map_nil, List.append_nil]
    rw [hlocks]
    exact List.Perm.append_left _ hperm

/-- A signal makes a process runnable; its request stays queued until it runs. -/
theorem FileInv.signal (h : FileInv F []) (p : Nat) :
    FileInv { F with sleepers := F.sleepers.map fun r =>
      if r.proc = p then { r with wchan := false } else r } [] := by
  have hsame : ∀ r : Sleeper, ∃ w, (w = true → r.wchan = true)
      ∧ (if r.proc = p then { r with wchan := false } else r) = { r with wchan := w } := by
    intro r
    split
    · exact ⟨false, by simp, rfl⟩
    · exact ⟨r.wchan, id, rfl⟩
  refine ⟨h.valid, h.sorted, h.compatible, ⟨?_, ?_, h.queue.nodup, ?_⟩, ?_, by simp, ?_⟩
  · intro b hb a ha
    obtain ⟨r, hr, haddr, hnext⟩ := h.queue.queued b hb a ha
    obtain ⟨w, -, heq⟩ := hsame r
    exact ⟨_, List.mem_map.mpr ⟨r, hr, rfl⟩, by rw [heq]; exact haddr, by rw [heq]; exact hnext⟩
  · intro r' hr'
    obtain ⟨r, hr, rfl⟩ := List.mem_map.mp hr'
    obtain ⟨w, -, heq⟩ := hsame r
    rw [heq]
    exact h.queue.waits r hr
  · intro r' hr' hwc
    obtain ⟨r, hr, rfl⟩ := List.mem_map.mp hr'
    obtain ⟨w, hw, heq⟩ := hsame r
    rw [heq] at hwc ⊢
    exact h.queue.asleep r hr (hw hwc)
  · intro r' hr'
    obtain ⟨r, hr, rfl⟩ := List.mem_map.mp hr'
    obtain ⟨w, -, heq⟩ := hsame r
    rw [heq]
    exact h.request r hr
  · refine h.addrs.perm (.of_eq ?_)
    simp only [File.addrs, List.map_map]
    refine congrArg (_ ++ ·) (congrArg (· ++ _) (List.map_congr_left fun r _ => ?_))
    obtain ⟨w, -, heq⟩ := hsame r
    simp only [Function.comp_apply, heq]

end Inv

end Obsd.Lf
