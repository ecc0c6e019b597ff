import Obsd.LockfSystem
import Obsd.WaitFor

/-!
# Deadlock detection

A process that sleeps in `lf_setlock` waits for the owner of the lock its
request is queued on. Before it goes to sleep, `deadlockWalk` follows
these edges from that owner, `maxlockdepth` of them at most, and refuses
the request if they lead back. Nothing else adds an edge: a lock that
takes over waiters has the owner of the lock they waited on. So there
never is a cycle of `maxlockdepth` processes or fewer, provided the owner
`lf_id` of a lock is the process that asked for it, which is what the walk
takes it for.
-/

namespace Obsd.Lf

/-! ## Who waits for whom -/

/-- A process sleeps on a lock of `o`, on this file. -/
def SleepsOn (F : File) (p : Nat) (o : Caddr) : Prop :=
  ∃ r ∈ F.sleepers, r.proc = p ∧ r.wchan = true ∧ ∃ b ∈ F.locks, r.lfNext = some b.addr ∧ b.lfId = o

/-- A process sleeps on a lock owned by another; `own` says by which `lf_id` a process
owns its locks. -/
def WaitsFor (own : Nat → Caddr) (s : Sys) (p q : Nat) : Prop := ∃ F ∈ s.files, SleepsOn F p (own q)

section Edges

variable {F : File} {lock : Lockf} {p : Nat} {o : Caddr}

theorem eq_of_addr {l : List Lockf} (hal : (l.map (·.addr)).Nodup) {b c : Lockf} (hb : b ∈ l)
    (hc : c ∈ l) (h : b.addr = c.addr) : b = c :=
  List.inj_on_of_nodup_map hal hb hc h

/-- A waiter on a lock hit stays asleep only if it is moved to a lock of the same owner. -/
theorem SleepsOn.of_leaveAll {f : Lockf → Option Nat} {F' : File} (h : SleepsOn F' p o)
    (hq : QueueOk F.locks F.sleepers) (hal : (F.locks.map (·.addr)).Nodup)
    (haS : (F.sleepers.map (·.lock.addr)).Nodup)
    (hS : F'.sleepers = F.sleepers.map (Sleeper.leaveAll f (hits lock F.locks)))
    (hother : ∀ b ∈ F.locks, ¬Hit lock b → ∀ b' ∈ F'.locks, b'.addr = b.addr → b'.lfId = b.lfId)
    (hmoved : ∀ b ∈ hits lock F.locks, ∀ b' ∈ F'.locks, f b = some b'.addr → b'.lfId = lock.lfId) :
    SleepsOn F p o := by
  obtain ⟨r', hr', rfl, hwc, b', hb', hnext, rfl⟩ := h
  rw [hS] at hr'
  obtain ⟨r, hr, rfl⟩ := List.mem_map.mp hr'
  have hwr : r.wchan = true := by
    rcases hq.leave_cases hal haS f lock r with ⟨heq, -⟩ | ⟨b, -, -, heq⟩
    · rw [heq] at hwc
      exact hwc
    · rw [heq] at hwc
      exact (Bool.and_eq_true_iff.mp hwc).1
  rw [Sleeper.leaveAll_same.2]
  -- a request that is queued on a lock points to it
  have hpoints : ∀ b ∈ F.locks, r.lock.addr ∈ b.lfBlkhd → r.lfNext = some b.addr := by
    intro b hb hmem
    obtain ⟨r0, hr0, haddr, hn⟩ := hq.queued b hb _ hmem
    obtain rfl : r0 = r := List.inj_on_of_nodup_map haS hr0 hr haddr
    exact hn
  rcases hq.leave_waits hal haS f lock hr hnext with ⟨b, hb, hit, haddr, hmem, -⟩ | ⟨b, hb, hf, hmem, -⟩
  · exact ⟨r, hr, rfl, hwr, b, hb, hpoints b hb hmem, (hother b hb hit b' hb' haddr.symm).symm⟩
  · obtain ⟨hbl, hit⟩ := mem_hits.mp hb
    exact ⟨r, hr, rfl, hwr, b, hbl, hpoints b hbl hmem, hit.1.trans (hmoved b hb b' hb' hf).symm⟩

theorem SleepsOn.of_clear (hinv : FileInv F [lock]) (hok : ClearOk lock F.locks)
    (h : SleepsOn (lfClearlock lock F) p o) : SleepsOn F p o := by
  have hal := (hinv.clear hok).lockAddrs
  obtain ⟨tail, S', freed', heq, hw⟩ := lfClearlock_walked hinv.valid hinv.sorted
  rw [heq] at h hal
  refine h.of_leaveAll hinv.queue hinv.lockAddrs hinv.sleeperAddrs
    (hw.sleepers.trans (foldl_leave lfWakelock_eq _ _)) ?_ ?_
  · intro b hb hit b' hb' haddr
    have hmem : b ∈ tail := hw.tail ▸ mem_carveAll_of_not_hit hb hit
    rw [eq_of_addr hal hb' hmem haddr]
  · intro b _ b' _ hf
    cases hf

theorem SleepsOn.of_place (hinv : FileInv F [lock]) (hty : lock.lfType ≠ .unlck)
    (hfree : lfGetblock lock F.locks = none) (hok : PlaceOk lock F.locks)
    (h : SleepsOn (place lock F) p o) : SleepsOn F p o := by
  have hal := (hinv.place hty hfree hok).lockAddrs
  obtain ⟨hl, -⟩ := hinv.inHand lock (by simp)
  obtain ⟨r, heq, hput⟩ := place_put hinv.valid hl hinv.sorted hok
  rw [heq] at h hal
  cases hput with
  | same => exact h
  | @equal b before after hlocks hid hx =>
      have hmem : ∀ c, c ∈ F.locks ↔ c = b ∨ c ∈ before ++ after := by
        intro c
        rw [hlocks]
        simp only [List.mem_append, List.mem_cons]
        tauto
      by_cases hd : downgrades lock b = true
      · simp only [hd, if_true] at h hal
        have hit : Hit lock b := ⟨hid, by rw [hx]; simp⟩
        have hwoken : lfWakelock b F.sleepers
            = F.sleepers.map (Sleeper.leaveAll (fun _ => none) (hits lock F.locks)) := by
          rw [hlocks, hits_equal (hlocks ▸ hinv.sorted) hid hx]
          exact lfWakelock_eq b F.sleepers
        refine h.of_leaveAll hinv.queue hinv.lockAddrs hinv.sleeperAddrs hwoken ?_ ?_
        · intro c hc hcit c' hc' haddr
          rcases (hmem c).mp hc with rfl | hc
          · exact (hcit hit).elim
          · have hc2 : c ∈ before ++ { b.woken with lfType := lock.lfType } :: after := by
              rcases List.mem_append.mp hc with hc | hc
              · exact List.mem_append_left _ hc
              · exact List.mem_append_right _ (List.mem_cons_of_mem _ hc)
            rw [eq_of_addr hal hc' hc2 haddr]
        · intro c _ c' _ hf
          cases hf
      · simp only [hd] at h
        obtain ⟨r, hr, rfl, hwc, b', hb', hnext, rfl⟩ := h
        rcases List.mem_append.mp hb' with hb' | hb'
        · exact ⟨r, hr, rfl, hwc, b', (hmem b').mpr (.inr (List.mem_append_left _ hb')), hnext, rfl⟩
        · rcases List.mem_cons.mp hb' with rfl | hb'
          · exact ⟨r, hr, rfl, hwc, b, (hmem b).mpr (.inl rfl), hnext, rfl⟩
          · exact ⟨r, hr, rfl, hwc, b', (hmem b').mpr (.inr (List.mem_append_right _ hb')), hnext, rfl⟩
  | @carved before after S' freed' hw hnew hb ha =>
      refine h.of_leaveAll hinv.queue hinv.lockAddrs hinv.sleeperAddrs
        (hw.sleepers.trans (foldl_leave (settle_eq lock) _ _)) ?_ ?_
      · intro b hb hit b' hb' haddr
        have hmem : b ∈ before ++ lock.taking (hits lock F.locks) :: after := by
          have hc : b ∈ before ++ after := hw.tail ▸ mem_carveAll_of_not_hit hb hit
          rcases List.mem_append.mp hc with hc | hc
          · exact List.mem_append_left _ hc
          · exact List.mem_append_right _ (List.mem_cons_of_mem _ hc)
        rw [eq_of_addr hal hb' hmem haddr]
      · intro b _ b' hb' hf
        unfold fate at hf
        split at hf
        · have hmem : lock.taking (hits lock F.locks)
              ∈ before ++ lock.taking (hits lock F.locks) :: after := by simp
          rw [eq_of_addr hal hb' hmem (Option.some.inj hf).symm]
          rfl
        · cases hf

/-- Only the process that goes to sleep begins to wait. -/
theorem SleepsOn.of_enqueue {p' : Nat} {block : Lockf} (hal : (F.locks.map (·.addr)).Nodup)
    (hb : block ∈ F.locks) (h : SleepsOn (enqueue p' lock block F) p o) :
    SleepsOn F p o ∨ (p = p' ∧ o = block.lfId) := by
  have hg := requeues_enqueued lock.addr block
  obtain ⟨r, hr, rfl, hwc, b', hb', hnext, rfl⟩ := h
  obtain ⟨b, hbl, rfl⟩ := List.mem_map.mp hb'
  have hid : (Lockf.enqueued lock.addr block b).lfId = b.lfId := by
    obtain ⟨q, hq⟩ := hg b
    rw [hq]
  have hnext : r.lfNext = some b.addr := hnext.trans (congrArg some (hg.addr b))
  rcases List.mem_append.mp hr with hr | hr
  · exact .inl ⟨r, hr, rfl, hwc, b, hbl, hnext, hid.symm⟩
  · obtain rfl := List.mem_singleton.mp hr
    obtain rfl : block = b := eq_of_addr hal hb hbl (Option.some.inj hnext)
    exact .inr ⟨rfl, hid⟩

theorem SleepsOn.of_dequeue {r : Sleeper} (h : SleepsOn (dequeue r F) p o) : SleepsOn F p o := by
  obtain ⟨r', hr', rfl, hwc, b', hb', hnext, rfl⟩ := h
  obtain ⟨b, hb, rfl⟩ := List.mem_map.mp hb'
  obtain ⟨q, hq⟩ := requeues_dequeued r b
  refine ⟨r', List.mem_of_mem_erase hr', rfl, hwc, b, hb, ?_, ?_⟩
  · exact hnext.trans (congrArg some ((requeues_dequeued r).addr b))
  · show b.lfId = (Lockf.dequeued r b).lfId
    rw [hq]

/-- Who runs again waited for nobody; the others go on waiting. -/
theorem SleepsOn.dequeue {r : Sleeper} (h : SleepsOn F p o) (hne : r.proc ≠ p) :
    SleepsOn (Lf.dequeue r F) p o := by
  obtain ⟨r', hr', rfl, hwc, b, hb, hnext, rfl⟩ := h
  obtain ⟨q, hq⟩ := requeues_dequeued r b
  refine ⟨r', (List.mem_erase_of_ne fun h => hne (congrArg _ h).symm).mpr hr', rfl, hwc,
    Lockf.dequeued r b, List.mem_map.mpr ⟨b, hb, rfl⟩, ?_, ?_⟩
  · exact hnext.trans (congrArg some ((requeues_dequeued r).addr b).symm)
  · rw [hq]

theorem SleepsOn.of_signal {p' : Nat}
    (h : SleepsOn { F with sleepers := F.sleepers.map fun r =>
      if r.proc = p' then { r with wchan := false } else r } p o) : SleepsOn F p o := by
  obtain ⟨r', hr', rfl, hwc, hb⟩ := h
  obtain ⟨r, hr, rfl⟩ := List.mem_map.mp hr'
  split at hwc
  · cases hwc
  · rename_i hp
    simp only [hp, if_false] at hb ⊢
    exact ⟨r, hr, rfl, hwc, hb⟩

end Edges

/-! ## POSIX locks and their processes -/

/-- All locks are of POSIX style, and a request is owned by the process that makes it. -/
structure PosixFile (F : File) : Prop where
  locks : ∀ b ∈ F.locks, b.lfFlags.posix = true
  requests : ∀ r ∈ F.sleepers, r.lock.lfFlags.posix = true ∧ r.lock.lfId = .proc r.proc

def File.procs (F : File) : List Nat := F.sleepers.map (·.proc)

section Posix

variable {F : File} {lock : Lockf} {p : Nat}

theorem carveAll_lfFlags {fresh : Nat} {l : List Lockf} {c : Lockf} (hc : c ∈ carveAll lock fresh l) :
    ∃ b ∈ l, c.lfFlags = b.lfFlags := by
  obtain ⟨b, hb, hcb⟩ := List.mem_flatMap.mp hc
  refine ⟨b, hb, ?_⟩
  unfold carveOwn at hcb
  split at hcb
  · rcases List.mem_append.mp hcb with hcb | hcb
    · split at hcb
      · rw [List.mem_singleton.mp hcb]
        rfl
      · cases hcb
    · split at hcb
      · rw [List.mem_singleton.mp hcb]
        split
        · rfl
        · rfl
      · cases hcb
  · rw [List.mem_singleton.mp hcb]

theorem Put.lfFlags {fresh : Nat} {l : List Lockf} {S : List Sleeper} {freed : List Nat} {r : Placed}
    (h : Put lock fresh l S freed r) {c : Lockf} (hc : c ∈ r.locks) :
    c.lfFlags = lock.lfFlags ∨ ∃ b ∈ l, c.lfFlags = b.lfFlags := by
  cases h with
  | same => exact .inr ⟨c, hc, rfl⟩
  | @equal b before after heq =>
      subst heq
      rcases List.mem_append.mp hc with hc | hc
      · exact .inr ⟨c, List.mem_append_left _ hc, rfl⟩
      · rcases List.mem_cons.mp hc with rfl | hc
        · refine .inr ⟨b, List.mem_append_right _ (List.mem_cons_self ..), ?_⟩
          split <;> rfl
        · exact .inr ⟨c, List.mem_append_right _ (List.mem_cons_of_mem _ hc), rfl⟩
  | @carved before after S' freed' hw =>
      have hrest : ∀ d ∈ before ++ after, ∃ b ∈ l, d.lfFlags = b.lfFlags :=
        fun d hd => carveAll_lfFlags (hw.tail ▸ hd)
      rcases List.mem_append.mp hc with hc | hc
      · exact .inr (hrest c (List.mem_append_left _ hc))
      · rcases List.mem_cons.mp hc with rfl | hc
        · exact .inl rfl
        · exact .inr (hrest c (List.mem_append_right _ hc))

/-- The sleepers keep their processes and requests. -/
theorem PosixFile.of_leaveAll {F' : File} {f : Lockf → Option Nat} {bs : List Lockf}
    (h : PosixFile F) (hS : F'.sleepers = F.sleepers.map (Sleeper.leaveAll f bs))
    (hlocks : ∀ c ∈ F'.locks, c.lfFlags.posix = true) :
    PosixFile F' ∧ F'.procs = F.procs := by
  refine ⟨⟨hlocks, ?_⟩, ?_⟩
  · intro r' hr'
    rw [hS] at hr'
    obtain ⟨r, hr, rfl⟩ := List.mem_map.mp hr'
    rw [Sleeper.leaveAll_same.1, Sleeper.leaveAll_same.2]
    exact h.requests r hr
  · unfold File.procs
    rw [hS, List.map_map]
    exact List.map_congr_left fun r _ => Sleeper.leaveAll_same.2

theorem PosixFile.clear (h : PosixFile F) (hinv : FileInv F [lock]) :
    PosixFile (lfClearlock lock F) ∧ (lfClearlock lock F).procs = F.procs := by
  obtain ⟨tail, S', freed', heq, hw⟩ := lfClearlock_walked hinv.valid hinv.sorted
  rw [heq]
  refine h.of_leaveAll (hw.sleepers.trans (foldl_leave lfWakelock_eq _ _)) ?_
  intro c hc
  obtain ⟨b, hb, hflags⟩ := carveAll_lfFlags (hw.tail ▸ hc)
  rw [hflags]
  exact h.locks b hb

theorem PosixFile.place (h : PosixFile F) (hinv : FileInv F [lock]) (hok : PlaceOk lock F.locks)
    (hlock : lock.lfFlags.posix = true) :
    PosixFile (Lf.place lock F) ∧ (Lf.place lock F).procs = F.procs := by
  obtain ⟨hl, -⟩ := hinv.inHand lock (by simp)
  obtain ⟨r, heq, hput⟩ := place_put hinv.valid hl hinv.sorted hok
  obtain ⟨f, bs, hS⟩ := hput.sleepers
  rw [heq]
  refine h.of_leaveAll hS ?_
  intro c hc
  rcases hput.lfFlags hc with hflags | ⟨b, hb, hflags⟩
  · rw [hflags]
    exact hlock
  · rw [hflags]
    exact h.locks b hb

theorem Requeues.posix {g : Lockf → Lockf} (hg : Requeues g) {l : List Lockf}
    (h : ∀ b ∈ l, b.lfFlags.posix = true) : ∀ b ∈ l.map g, b.lfFlags.posix = true := by
  intro c hc
  obtain ⟨b, hb, rfl⟩ := List.mem_map.mp hc
  obtain ⟨q, hq⟩ := hg b
  rw [hq]
  exact h b hb

theorem PosixFile.enqueue (block : Lockf) (h : PosixFile F)
    (hlock : lock.lfFlags.posix = true ∧ lock.lfId = .proc p) :
    PosixFile (Lf.enqueue p lock block F) ∧ (Lf.enqueue p lock block F).procs = F.procs ++ [p] := by
  refine ⟨⟨(requeues_enqueued lock.addr block).posix h.locks, ?_⟩, ?_⟩
  · intro r hr
    rcases List.mem_append.mp hr with hr | hr
    · exact h.requests r hr
    · obtain rfl := List.mem_singleton.mp hr
      exact hlock
  · exact List.map_append

theorem PosixFile.dequeue (h : PosixFile F) (r : Sleeper) : PosixFile (Lf.dequeue r F) :=
  ⟨(requeues_dequeued r).posix h.locks, fun r' hr' => h.requests r' (List.mem_of_mem_erase hr')⟩

theorem PosixFile.signal (h : PosixFile F) (p : Nat) :
    PosixFile { F with sleepers := F.sleepers.map fun r =>
      if r.proc = p then { r with wchan := false } else r }
    ∧ File.procs { F with sleepers := F.sleepers.map fun r =>
      if r.proc = p then { r with wchan := false } else r } = F.procs := by
  refine ⟨⟨h.locks, ?_⟩, ?_⟩
  · intro r' hr'
    obtain ⟨r, hr, rfl⟩ := List.mem_map.mp hr'
    split
    · exact h.requests r hr
    · exact h.requests r hr
  · unfold File.procs
    rw [List.map_map]
    refine List.map_congr_left fun r _ => ?_
    simp only [Function.comp_apply]
    split <;> rfl

end Posix

/-! ## One request at a time -/

/-- The processes in the middle of a call. -/
def Sys.procs (s : Sys) : List Nat := s.files.flatMap File.procs

section Procs

variable {s : Sys} {p f : Nat} {F : File}

theorem not_mem_procs_of_idle (h : s.idle p = true) : p ∉ s.procs := by
  intro hmem
  obtain ⟨F, hF, hp⟩ := List.mem_flatMap.mp hmem
  obtain ⟨r, hr, rfl⟩ := List.mem_map.mp hp
  have := List.all_eq_true.mp (List.all_eq_true.mp h F hF) r hr
  simp at this

/-- A step changes the processes of one file. -/
theorem procs_set (hF : s.files[f]? = some F) :
    ∃ rest, s.procs.Perm (F.procs ++ rest) ∧ ∀ F', (s.set f F').procs.Perm (F'.procs ++ rest) := by
  obtain ⟨hlt, hget⟩ := List.getElem?_eq_some_iff.mp hF
  have hset : ∀ F', (s.set f F').procs
      = (s.files.take f).flatMap File.procs ++ (F'.procs ++ (s.files.drop (f + 1)).flatMap File.procs) := by
    intro F'
    unfold Sys.procs Sys.set
    rw [List.set_eq_take_append_cons_drop, if_pos hlt, List.flatMap_append, List.flatMap_cons]
  have hself : s.set f F = s := by
    unfold Sys.set
    rw [← hget, List.set_getElem_self]
  have hperm : ∀ F', (s.set f F').procs.Perm (F'.procs
      ++ ((s.files.take f).flatMap File.procs ++ (s.files.drop (f + 1)).flatMap File.procs)) := by
    intro F'
    rw [hset, ← List.append_assoc, ← List.append_assoc]
    exact List.perm_append_comm.append_right _
  refine ⟨_, ?_, hperm⟩
  have := hperm F
  rw [hself] at this
  exact this

/-- A process has one request, on one file. -/
theorem sleeper_unique {G : File} {r r' : Sleeper} (h : s.procs.Nodup) (hF : F ∈ s.files)
    (hG : G ∈ s.files) (hr : r ∈ F.sleepers) (hr' : r' ∈ G.sleepers) (hp : r.proc = r'.proc) :
    F = G ∧ r = r' := by
  obtain ⟨hnd, hdisj⟩ := List.nodup_flatMap.mp h
  have hFG : F = G := by
    by_contra hne
    have hsymm : Std.Symm (Function.onFun List.Disjoint File.procs) := ⟨fun _ _ h _ h1 h2 => h h2 h1⟩
    exact hdisj.forall hF hG hne (List.mem_map.mpr ⟨r, hr, rfl⟩) (List.mem_map.mpr ⟨r', hr', hp.symm⟩)
  subst hFG
  exact ⟨rfl, List.inj_on_of_nodup_map (hnd F hF) hr hr' hp⟩

end Procs

/-! ## The walk -/

section Walk

variable {s : Sys} {p : Nat} (hone : s.procs.Nodup)

include hone

theorem pWchan_eq {F : File} {r : Sleeper} (hF : F ∈ s.files) (hr : r ∈ F.sleepers)
    (hwc : r.wchan = true) : pWchan s r.proc = some (F, r) := by
  have hsome : (pWchan s r.proc).isSome = true := by
    unfold pWchan
    rw [List.findSome?_isSome_iff]
    refine ⟨F, hF, ?_⟩
    rw [Option.isSome_map, List.find?_isSome]
    exact ⟨r, hr, by simp [hwc]⟩
  obtain ⟨⟨G, r'⟩, hG⟩ := Option.isSome_iff_exists.mp hsome
  obtain ⟨H, hH, hfind⟩ := List.exists_of_findSome?_eq_some hG
  obtain ⟨r'', hr'', heq⟩ := Option.map_eq_some_iff.mp hfind
  obtain ⟨rfl, rfl⟩ := Prod.mk.inj heq
  have hproc := List.find?_some hr''
  simp only [Bool.and_eq_true, decide_eq_true_eq] at hproc
  obtain ⟨rfl, rfl⟩ := sleeper_unique hone hF hH hr (List.mem_of_find?_eq_some hr'') hproc.1.symm
  exact hG

/-- The walk finds every short path back. -/
theorem deadlockWalk_of_path (hal : ∀ F ∈ s.files, (F.locks.map (·.addr)).Nodup)
    (hpos : ∀ F ∈ s.files, ∀ b ∈ F.locks, b.lfFlags.posix = true) {i m q : Nat}
    (h : RelPath (WaitsFor .proc s) m q p) (h0 : 0 < m) (hi : m ≤ i) :
    deadlockWalk s (.proc p) i (.proc q) = true := by
  induction i generalizing m q with
  | zero => omega
  | succ i ih =>
      cases h with
      | nil => omega
      | @cons m _ q' _ edge rest =>
          obtain ⟨F, hF, r, hr, rfl, hwc, b, hb, hnext, hid⟩ := edge
          have hfind : (F.locks.find? fun c => decide (c.addr = b.addr)) = some b := by
            have hsome : (F.locks.find? fun c => decide (c.addr = b.addr)).isSome = true := by
              rw [List.find?_isSome]
              exact ⟨b, hb, by simp⟩
            obtain ⟨c, hc⟩ := Option.isSome_iff_exists.mp hsome
            have haddr := List.find?_some hc
            rw [decide_eq_true_eq] at haddr
            rw [hc, eq_of_addr (hal F hF) (List.mem_of_find?_eq_some hc) hb haddr]
          unfold deadlockWalk
          rw [pWchan_eq hone hF hr hwc]
          simp only [hnext, Option.bind_some, hfind, hpos F hF b hb, Bool.not_true,
            Bool.false_eq_true, if_false]
          rw [hid]
          split
          · rfl
          · rename_i hne
            refine ih rest ?_ (Nat.le_of_succ_le_succ hi)
            rcases Nat.eq_zero_or_pos m with rfl | hm
            · cases rest
              exact (hne rfl).elim
            · exact hm

end Walk

/-! ## Steps make no short cycle -/

/-- What a request to lock finds when nothing is out of order. -/
structure WaitInv (s : Sys) : Prop where
  addrs : ∀ F ∈ s.files, (F.locks.map (·.addr)).Nodup
  one : s.procs.Nodup
  posix : ∀ F ∈ s.files, PosixFile F
  acyclic : NoCycle (WaitsFor .proc s) maxlockdepth

section Steps

variable {s : Sys} {p f : Nat} {lock : Lockf} {F F' : File} {ret : Ret}

/-- A file is changed. -/
theorem WaitsFor.of_set {own : Nat → Caddr} (extra : Nat → Caddr → Prop) (hF : s.files[f]? = some F)
    (hsub : ∀ a o, SleepsOn F' a o → SleepsOn F a o ∨ extra a o) {a b : Nat}
    (h : WaitsFor own (s.set f F') a b) : WaitsFor own s a b ∨ extra a (own b) := by
  obtain ⟨G, hG, hsl⟩ := h
  rcases List.mem_or_eq_of_mem_set hG with hG | rfl
  · exact .inl ⟨G, hG, hsl⟩
  · exact (hsub a _ hsl).imp (fun h => ⟨F, List.mem_of_getElem? hF, h⟩) id

/-- A change that makes nobody wait. -/
theorem WaitInv.shrink (h : WaitInv s) (hF : s.files[f]? = some F)
    (haddrs : (F'.locks.map (·.addr)).Nodup) (hposix : PosixFile F')
    (hprocs : List.Sublist F'.procs F.procs) (hsub : ∀ a o, SleepsOn F' a o → SleepsOn F a o) :
    WaitInv (s.set f F') := by
  obtain ⟨rest, hperm, hset⟩ := procs_set hF
  refine ⟨?_, ?_, ?_, ?_⟩
  · intro G hG
    rcases List.mem_or_eq_of_mem_set hG with hG | rfl
    · exact h.addrs G hG
    · exact haddrs
  · exact (hset F').nodup_iff.mpr ((hperm.nodup_iff.mp h.one).sublist (hprocs.append_right _))
  · intro G hG
    rcases List.mem_or_eq_of_mem_set hG with hG | rfl
    · exact h.posix G hG
    · exact hposix
  · refine h.acyclic.mono fun a b hw => ?_
    have hcase : WaitsFor .proc s a b ∨ False := 
      hw.of_set (fun _ _ => False) hF fun a o h => .inl (hsub a o h)
    exact hcase.resolve_right id

/-- A short path back from the owner of the lock in the way is found. -/
theorem WaitInv.walk_back (h : WaitInv s) {block : Lockf} {q n : Nat} (hblk : Blocks lock block)
    (hlock : lock.lfId = .proc p) (hq : block.lfId = .proc q)
    (hpath : RelPath (WaitsFor .proc s) n q p) (hn : n < maxlockdepth) :
    deadlockWalk s lock.lfId maxlockdepth block.lfId = true := by
  rw [hlock, hq]
  rcases Nat.eq_zero_or_pos n with rfl | h0
  · cases hpath
    exact (hblk.1 (hq.trans hlock.symm)).elim
  · exact deadlockWalk_of_path h.one h.addrs (fun F hF => (h.posix F hF).locks) hpath h0
      (Nat.le_of_lt hn)

/-- `lf_setlock` on a file in order; `F` is as `s` has it, but for its addresses. -/
theorem WaitInv.setlock {F₀ : File} (h : WaitInv s) (hF : s.files[f]? = some F₀)
    (hinv : FileInv F [lock]) (hlocks : F₀.locks = F.locks) (hsleepers : F₀.sleepers = F.sleepers)
    (hty : lock.lfType ≠ .unlck) (hfit : SetFits lock F.locks)
    (hlock : lock.lfFlags.posix = true ∧ lock.lfId = .proc p) (hp : p ∉ s.procs)
    (hset : lfSetlock s p lock F = (ret, F')) : WaitInv (s.set f F') := by
  have hkeep : FileInv F' [] := hinv.setlock hty hfit hset
  have hF₀ : PosixFile F₀ := h.posix F₀ (List.mem_of_getElem? hF)
  have hposix : PosixFile F := ⟨hlocks ▸ hF₀.locks, hsleepers ▸ hF₀.requests⟩
  have hprocs : F₀.procs = F.procs := congrArg (List.map _) hsleepers
  have hedges : ∀ {a o}, SleepsOn F a o → SleepsOn F₀ a o := by
    rintro a o ⟨r, hr, hp, hwc, b, hb, hrest⟩
    exact ⟨r, hsleepers ▸ hr, hp, hwc, b, hlocks ▸ hb, hrest⟩
  unfold SetFits at hfit
  rcases lfSetlock_cases hset with ⟨block, hblock, ⟨-, rfl⟩ | ⟨-, hwait, hdead, rfl⟩⟩ | ⟨hnone, -, rfl⟩
  · refine h.shrink hF hkeep.lockAddrs ⟨hposix.locks, hposix.requests⟩ ?_ fun a o h => hedges h
    rw [hprocs]
    exact .refl _
  · rw [hblock, if_pos Option.isSome_some] at hfit
    obtain ⟨hmem, hblk⟩ := getblock_some hblock
    -- the file the request is queued on
    obtain ⟨G, hG, hGmem, hGaddrs, ⟨hGposix, hGprocs⟩, hGedges⟩ : ∃ G,
        G = (if lock.lfFlags.flock && decide (lock.lfType = .wrlck) then lfClearlock lock F else F)
        ∧ block ∈ G.locks ∧ (G.locks.map (·.addr)).Nodup ∧ (PosixFile G ∧ G.procs = F.procs)
        ∧ ∀ a o, SleepsOn G a o → SleepsOn F a o := by
      refine ⟨_, rfl, ?_⟩
      split
      · rename_i hflock
        have hok : ClearOk lock F.locks := by
          refine hfit ?_
          rw [hwait, Bool.true_and]
          exact hflock
        exact ⟨mem_lfClearlock hinv.valid hinv.sorted hmem hblk.1, (hinv.clear hok).lockAddrs,
          hposix.clear hinv, fun a o => SleepsOn.of_clear hinv hok⟩
      · exact ⟨hmem, hinv.lockAddrs, ⟨hposix, rfl⟩, fun a o h => h⟩
    rw [← hG] at hkeep ⊢
    obtain ⟨hposix', hprocs'⟩ := hGposix.enqueue block hlock
    have hedge : ∀ a o, SleepsOn (enqueue p lock block G) a o →
        SleepsOn F₀ a o ∨ (a = p ∧ o = block.lfId) :=
      fun a o hsl => (SleepsOn.of_enqueue hGaddrs hGmem hsl).imp (fun h => hedges (hGedges a o h)) id
    obtain ⟨rest, hperm, hpset⟩ := procs_set hF
    refine ⟨?_, ?_, ?_, ?_⟩
    · intro H hH
      rcases List.mem_or_eq_of_mem_set hH with hH | rfl
      · exact h.addrs H hH
      · exact hkeep.lockAddrs
    · rw [(hpset _).nodup_iff, hprocs', hGprocs, ← hprocs]
      have hmid : (F₀.procs ++ [p] ++ rest).Perm (p :: s.procs) := by
        rw [List.append_assoc]
        exact List.perm_middle.trans (hperm.symm.cons p)
      exact hmid.nodup_iff.mpr (List.nodup_cons.mpr ⟨hp, h.one⟩)
    · intro H hH
      rcases List.mem_or_eq_of_mem_set hH with hH | rfl
      · exact h.posix H hH
      · exact hposix'
    · have hadd : ∀ a b, WaitsFor .proc (s.set f (enqueue p lock block G)) a b →
          WaitsFor .proc s a b ∨ (a = p ∧ Caddr.proc b = block.lfId) :=
        fun a b hw => hw.of_set (fun a o => a = p ∧ o = block.lfId) hF hedge
      by_cases hq : ∃ q, block.lfId = .proc q
      · obtain ⟨q, hq⟩ := hq
        refine h.acyclic.add (p := p) (q := q) ?_ fun n hn hpath => hdead ?_
        swap
        · rw [hlock.1, hposix.locks block hmem, h.walk_back hblk hlock.2 hq hpath hn]
          rfl
        intro a b hw
        refine (hadd a b hw).imp id ?_
        rintro ⟨rfl, hb⟩
        exact ⟨rfl, Caddr.proc.inj (hb.trans hq)⟩
      · exact h.acyclic.mono fun a b hw => (hadd a b hw).resolve_right fun h => hq ⟨b, h.2.symm⟩
  · rw [hnone, if_neg (by simp)] at hfit
    obtain ⟨hposix', hprocs'⟩ := hposix.place hinv hfit hlock.1
    refine h.shrink hF hkeep.lockAddrs hposix' ?_ fun a o hsl =>
      hedges (SleepsOn.of_place hinv hty hnone hfit hsl)
    rw [hprocs', hprocs]

end Steps

/-! ## Runs -/

/-- A POSIX request, for locks owned by `own` of the process. -/
def PosixCall (own : Nat → Caddr) : Act → Prop
  | .advlock p _ _ id _ _ flags _ => flags.posix = true ∧ id = own p
  | _ => True

instance (own : Nat → Caddr) : DecidablePred (PosixCall own)
  | .advlock .. => inferInstanceAs (Decidable (_ ∧ _))
  | .signal .. => inferInstanceAs (Decidable True)
  | .resume .. => inferInstanceAs (Decidable True)

def Act.proc : Act → Nat
  | .advlock p .. => p
  | .signal p _ => p
  | .resume p .. => p

section Deadlock

variable {s s' : Sys} {a : Act} {ret : Ret} {p f : Nat} {F F' : File}

/-- The system after a process has come out of `tsleep`. -/
theorem WaitInv.dequeue {r : Sleeper} (h : WaitInv s) (hinv : FileInv F [])
    (hF : s.files[f]? = some F) (hr : r ∈ F.sleepers) :
    WaitInv (s.set f (Lf.dequeue r F)) ∧ r.proc ∉ (s.set f (Lf.dequeue r F)).procs := by
  have hposix := h.posix F (List.mem_of_getElem? hF)
  refine ⟨h.shrink hF (hinv.dequeue hr).lockAddrs (hposix.dequeue r) ?_ fun a o => SleepsOn.of_dequeue, ?_⟩
  · exact List.Sublist.map _ List.erase_sublist
  · obtain ⟨rest, hperm, hset⟩ := procs_set hF
    have hcons : F.procs.Perm (r.proc :: (Lf.dequeue r F).procs) := (List.perm_cons_erase hr).map _
    have hnd := (hperm.trans (hcons.append_right rest)).nodup_iff.mp h.one
    rw [(hset _).mem_iff]
    exact (List.nodup_cons.mp hnd).1

theorem WaitInv.step (h : WaitInv s) (hsys : SysInv s) (hcall : Called a) (hfit : Fits s a)
    (hposix : PosixCall .proc a) (hstep : stepRet s a = some (ret, s')) : WaitInv s' := by
  obtain ⟨f, F, F', hF, rfl, hcases⟩ := stepRet_cases hstep
  have hmem := List.mem_of_getElem? hF
  have hinv : FileInv F [] := hsys F hmem
  have hfile := h.posix F hmem
  rcases hcases with ⟨p, size, id, op, fl, fl', flags, nolck, rfl, hidle, hadv⟩ | ⟨p, -, rfl⟩
    | ⟨p, err, r, rfl, hres⟩
  · rcases lfAdvlock_cases hadv with ⟨rfl, -⟩ | ⟨range, hrange, hop⟩
    · exact h.shrink hF hinv.lockAddrs hfile (.refl _) fun a o h => h
    · have halloc : FileInv { F with next := F.next + 1 } [newLock p id fl flags range F] :=
        hinv.alloc (flockRange_ranged hrange p id flags F) rfl rfl
      have hreq : (Act.advlock p f size id op fl flags nolck).request s
          = some (f, op, newLock p id fl flags range F) := by
        simp only [Act.request, hF, hrange]
        rfl
      have hfits : OpFits op (newLock p id fl flags range F) F.locks := hfit _ hreq F hF
      rcases hop with ⟨rfl, hset⟩ | ⟨rfl, -, rfl⟩ | ⟨rfl, -, rfl⟩
      · exact h.setlock hF halloc rfl rfl (hcall rfl) hfits hposix (not_mem_procs_of_idle hidle) hset
      · have hfile' : PosixFile { F with next := F.next + 1 } := ⟨hfile.locks, hfile.requests⟩
        obtain ⟨hposix', hprocs'⟩ := hfile'.clear halloc
        have hsub : ∀ a o, SleepsOn (lfClearlock (newLock p id fl flags range F)
            { F with next := F.next + 1 }) a o → SleepsOn { F with next := F.next + 1 } a o :=
          fun a o => SleepsOn.of_clear halloc hfits
        refine h.shrink hF (halloc.clear hfits).lockAddrs ⟨hposix'.locks, hposix'.requests⟩ ?_ hsub
        exact hprocs' ▸ List.Sublist.refl _
      · exact h.shrink hF hinv.lockAddrs ⟨hfile.locks, hfile.requests⟩ (.refl _) fun a o h => h
  · obtain ⟨hposix', hprocs'⟩ := hfile.signal p
    refine h.shrink hF hinv.lockAddrs hposix' ?_ fun a o => SleepsOn.of_signal
    rw [hprocs']
  · obtain ⟨hfind, -, hend⟩ := hres
    have hr : r ∈ F.sleepers := List.mem_of_find?_eq_some hfind
    have hproc : r.proc = p := by simpa using List.find?_some hfind
    have hdeq := hinv.dequeue hr
    rcases hend with ⟨-, -, rfl⟩ | ⟨rfl, hset⟩
    · refine h.shrink hF hdeq.lockAddrs ?_ (List.Sublist.map _ List.erase_sublist) fun a o hsl =>
        SleepsOn.of_dequeue hsl
      exact ⟨(hfile.dequeue r).locks, (hfile.dequeue r).requests⟩
    · obtain ⟨hwait, hnot⟩ := h.dequeue hinv hF hr
      have hreq : (Act.resume p f false).request s = some (f, .setlk, r.lock) := by
        simp only [Act.request, hF, Option.bind_some, hfind]
        rfl
      have hget : (s.set f (Lf.dequeue r F)).files[f]? = some (Lf.dequeue r F) :=
        List.getElem?_set_self (List.getElem?_eq_some_iff.mp hF).1
      have hkeep := hwait.setlock hget hdeq rfl rfl (hinv.request r hr).1.type
        ((requeues_dequeued r).setFits (hfit _ hreq F hF)) (hproc ▸ hfile.requests r hr)
        (hproc ▸ hnot) hset
      have hset2 : (s.set f (Lf.dequeue r F)).set f F' = s.set f F' := by
        unfold Sys.set
        rw [List.set_set]
      rw [hset2] at hkeep
      exact hkeep

theorem waitInv_init (n : Nat) : WaitInv (init n) := by
  have hfile : ∀ F ∈ (init n).files, F = {} := fun F hF => List.eq_of_mem_replicate hF
  refine ⟨?_, ?_, ?_, ?_⟩
  · intro F hF
    rw [hfile F hF]
    exact List.nodup_nil
  · have hnil : (init n).procs = [] := by
      refine List.flatMap_eq_nil_iff.mpr fun F hF => ?_
      rw [hfile F hF]
      rfl
    rw [hnil]
    exact List.nodup_nil
  · intro F hF
    rw [hfile F hF]
    exact ⟨by simp, by simp⟩
  · intro p k h0 _ hpath
    cases hpath with
    | nil => omega
    | cons edge =>
        obtain ⟨F, hF, r, hr, -⟩ := edge
        rw [hfile F hF] at hr
        cases hr

theorem WaitInv.runs {n : Nat}
    (h : Runs Lf.step (fun s a => Called a ∧ Fits s a ∧ PosixCall .proc a) (init n) s) :
    SysInv s ∧ WaitInv s := by
  have hkeep : ∀ s a s', Called a ∧ Fits s a ∧ PosixCall .proc a → Lf.step s a = some s' →
      SysInv s ∧ WaitInv s → SysInv s' ∧ WaitInv s' := by
    rintro s a s' ⟨hcall, hfit, hposix⟩ hstep ⟨hsys, hwait⟩
    obtain ⟨⟨ret, t⟩, hret, rfl⟩ := Option.map_eq_some_iff.mp hstep
    exact ⟨hsys.step hcall hfit hret, hwait.step hsys hcall hfit hposix hret⟩
  have hend := Runs.invariant hkeep h ⟨sysInv_init n, waitInv_init n⟩
  exact hend

/-- The walk refuses the request. -/
theorem lfSetlock_edeadlk {lock block : Lockf} (hblock : lfGetblock lock F.locks = some block)
    (hw : lock.lfFlags.wait = true) (hlock : lock.lfFlags.posix = true)
    (hposix : block.lfFlags.posix = true)
    (hwalk : deadlockWalk s lock.lfId maxlockdepth block.lfId = true) :
    lfSetlock s p lock F = (.edeadlk, lfFree lock.addr F) := by
  unfold lfSetlock
  rw [hblock]
  simp [hw, hlock, hposix, hwalk]

/-- A process that has come out of `tsleep` waits for nobody, and the others wait for
whom they waited. -/
theorem RelPath.dequeue {r : Sleeper} {q m : Nat} (h : WaitInv s) (hF : s.files[f]? = some F)
    (hr : r ∈ F.sleepers) (hwc : r.wchan = false) (hpath : RelPath (WaitsFor .proc s) m q p) :
    RelPath (WaitsFor .proc (s.set f (Lf.dequeue r F))) m q p := by
  refine hpath.mono ?_
  rintro a b ⟨G, hG, hsl⟩
  have hne : r.proc ≠ a := by
    obtain ⟨r', hr', rfl, hwc', -⟩ := hsl
    intro hp
    obtain ⟨-, rfl⟩ := sleeper_unique h.one (List.mem_of_getElem? hF) hG hr hr' hp
    rw [hwc] at hwc'
    cases hwc'
  obtain ⟨j, hj⟩ := List.mem_iff_getElem?.mp hG
  by_cases hjf : f = j
  · subst hjf
    obtain rfl : F = G := Option.some.inj (hF.symm.trans hj)
    refine ⟨Lf.dequeue r F, ?_, hsl.dequeue hne⟩
    exact List.mem_of_getElem? (List.getElem?_set_self (List.getElem?_eq_some_iff.mp hF).1)
  · exact ⟨G, List.mem_of_getElem? ((List.getElem?_set_ne hjf).trans hj), hsl⟩

/-- A request that would close a short cycle does not sleep. -/
theorem WaitInv.refused {lock block : Lockf} {q m : Nat} (h : WaitInv s) (hsys : SysInv s)
    (hposix : PosixCall .proc a) (hreq : a.request s = some (f, .setlk, lock))
    (hF : s.files[f]? = some F) (hblock : lfGetblock lock F.locks = some block)
    (hw : lock.lfFlags.wait = true) (hq : block.lfId = .proc q)
    (hpath : RelPath (WaitsFor .proc s) m q a.proc) (hm : m < maxlockdepth)
    (hstep : stepRet s a = some (ret, s')) : ret = .edeadlk ∨ ret = .enolck := by
  obtain ⟨hbmem, hblk⟩ := getblock_some hblock
  have hb : block.lfFlags.posix = true := (h.posix F (List.mem_of_getElem? hF)).locks block hbmem
  obtain ⟨g, G, F', hG, rfl, hcases⟩ := stepRet_cases hstep
  have hfile := h.posix G (List.mem_of_getElem? hG)
  have hinv : FileInv G [] := hsys G (List.mem_of_getElem? hG)
  rcases hcases with ⟨p, size, id, op, fl, fl', flags, nolck, rfl, -, hadv⟩ | ⟨p, rfl, -⟩
    | ⟨p, err, r, rfl, hres⟩
  · simp only [Act.request, hG, Option.bind_some, Option.map_eq_some_iff] at hreq
    obtain ⟨range, hrange, heq⟩ := hreq
    obtain ⟨rfl, heq2⟩ := Prod.mk.inj heq
    obtain ⟨rfl, rfl⟩ := Prod.mk.inj heq2
    obtain rfl : F = G := Option.some.inj (hF.symm.trans hG)
    have hwalk := h.walk_back hblk hposix.2 hq hpath hm
    rcases lfAdvlock_cases hadv with ⟨-, ⟨-, hnone⟩ | rfl | ⟨-, hop, -⟩⟩ | ⟨range', hrange', hop⟩
    · rw [hrange] at hnone
      cases hnone
    · exact .inr rfl
    · exact (hop rfl).elim
    · obtain rfl : range' = range := Option.some.inj (hrange'.symm.trans hrange)
      rcases hop with ⟨-, hset⟩ | ⟨hop, -⟩ | ⟨hop, -⟩
      · have hdead : lfSetlock s p (newLock p id fl flags range' F) { F with next := F.next + 1 }
            = (.edeadlk, _) := lfSetlock_edeadlk hblock hw hposix.1 hb hwalk
        exact .inl (Prod.mk.inj (hset.symm.trans hdead)).1
      · cases hop
      · cases hop
  · cases hreq
  · cases err with
    | true => cases hreq
    | false =>
        simp only [Act.request, hG, Option.bind_some, hres.1, Option.map_some] at hreq
        obtain ⟨rfl, heq2⟩ := Prod.mk.inj (Option.some.inj hreq)
        obtain ⟨-, rfl⟩ := Prod.mk.inj heq2
        obtain rfl : F = G := Option.some.inj (hF.symm.trans hG)
        obtain ⟨hfind, hwc, ⟨herr, -⟩ | ⟨-, hset⟩⟩ := hres
        · cases herr
        · have hr : r ∈ F.sleepers := List.mem_of_find?_eq_some hfind
          have hproc : r.proc = p := by simpa using List.find?_some hfind
          have hg := requeues_dequeued r
          obtain ⟨k, hk⟩ := hg block
          have hblock' : lfGetblock r.lock (Lf.dequeue r F).locks = some (Lockf.dequeued r block) :=
            (hg.getblock_map F.locks).trans (congrArg (Option.map _) hblock)
          have hwait := (h.dequeue hinv hF hr).1
          have hid : r.lock.lfId = .proc p := hproc ▸ (hfile.requests r hr).2
          have hwalk := hwait.walk_back (hg.blocks hblk) hid (by rw [hk]; exact hq)
            (RelPath.dequeue h hF hr hwc hpath) hm
          rw [lfSetlock_edeadlk hblock' hw (hfile.requests r hr).1 (by rw [hk]; exact hb) hwalk] at hset
          exact .inl (Prod.mk.inj hset).1.symm

end Deadlock

/-- In every run whose requests fit and whose processes own their locks themselves, no
cycle of `maxlockdepth` processes or fewer wait for each other: who would close one gets
`EDEADLK`, if not `ENOLCK` before. -/
theorem deadlock_runs {n : Nat} {s : Sys}
    (h : Runs Lf.step (fun s a => Called a ∧ Fits s a ∧ PosixCall .proc a) (init n) s) :
    NoCycle (WaitsFor .proc s) maxlockdepth
      ∧ ∀ {a : Act} {ret : Ret} {s' : Sys} {f q m : Nat} {lock block : Lockf} {F : File},
        PosixCall .proc a → a.request s = some (f, .setlk, lock) → s.files[f]? = some F →
        lfGetblock lock F.locks = some block → lock.lfFlags.wait = true → block.lfId = .proc q →
        RelPath (WaitsFor .proc s) m q a.proc → m < maxlockdepth →
        stepRet s a = some (ret, s') → ret = .edeadlk ∨ ret = .enolck := by
  obtain ⟨hsys, hwait⟩ := WaitInv.runs h
  refine ⟨hwait.acyclic, ?_⟩
  intro a ret s' f q m lock block F hposix hreq hF hblock hw hq hpath hm hstep
  exact hwait.refused hsys hposix hreq hF hblock hw hq hpath hm hstep

/-- Two writers, the first of which waits for the second. -/
def twoWriters : Sys :=
  ⟨[⟨[⟨0, { posix := true }, .wrlck, 0, 0, .proc 1, 1, []⟩,
      ⟨2, { posix := true }, .wrlck, 1, 1, .proc 2, 2, [4]⟩],
    [⟨1, ⟨4, { wait := true, posix := true }, .wrlck, 1, 1, .proc 1, 1, []⟩, some 2, true⟩], 5, []⟩]⟩

/-- The second may not wait for the first. -/
theorem deadlock_two_writers :
    NoCycle (WaitsFor .proc twoWriters) maxlockdepth
      ∧ (stepRet twoWriters (posixLock .proc 2 0 .setlk 0 1 .wrlck true)).map Prod.fst = some .edeadlk
      ∧ ∀ ret s', stepRet twoWriters (posixLock .proc 2 0 .setlk 0 1 .wrlck true) = some (ret, s') →
        ret = .edeadlk ∨ ret = .enolck := by
  have hrun : Runs Lf.step (fun s a => Called a ∧ Fits s a ∧ PosixCall .proc a) (init 1) twoWriters :=
    Runs.of_exec (fun _ _ => of_decide_eq_true)
      [posixLock .proc 1 0 .setlk 0 1 .wrlck false, posixLock .proc 2 0 .setlk 1 1 .wrlck false,
        posixLock .proc 1 0 .setlk 1 1 .wrlck true]
      (by decide +kernel)
  have hreq : (posixLock .proc 2 0 .setlk 0 1 .wrlck true).request twoWriters
      = some (0, .setlk, ⟨5, { wait := true, posix := true }, .wrlck, 0, 0, .proc 2, 2, []⟩) := by
    decide +kernel
  have hpath : RelPath (WaitsFor .proc twoWriters) 1 1 2 :=
    .cons ⟨_, List.mem_cons_self .., _, List.mem_cons_self .., rfl, rfl, _,
      List.mem_cons_of_mem _ (List.mem_cons_self ..), rfl, rfl⟩ (.nil 2)
  refine ⟨(deadlock_runs hrun).1, by decide +kernel, fun ret s' hstep => ?_⟩
  exact (deadlock_runs hrun).2 (by decide) hreq rfl rfl rfl rfl hpath (by decide) hstep

/-- Two writers that wait for each other, their locks owned by their tables of open
files. -/
def crossedWriters : Sys :=
  ⟨[⟨[⟨0, { posix := true }, .wrlck, 0, 0, .filedesc 1, 1, [5]⟩,
      ⟨2, { posix := true }, .wrlck, 1, 1, .filedesc 2, 2, [4]⟩],
    [⟨1, ⟨4, { wait := true, posix := true }, .wrlck, 1, 1, .filedesc 1, 1, []⟩, some 2, true⟩,
      ⟨2, ⟨5, { wait := true, posix := true }, .wrlck, 0, 0, .filedesc 2, 2, []⟩, some 0, true⟩],
    6, []⟩]⟩

/-- The table of open files, which `fcntl` passes, is no process, and the walk ends there:
the two are not found out. -/
theorem deadlock_filedesc :
    ∃ s, Runs Lf.step (fun s a => Called a ∧ Fits s a ∧ PosixCall .filedesc a) (init 1) s
      ∧ ¬NoCycle (WaitsFor .filedesc s) maxlockdepth := by
  refine ⟨crossedWriters, ?_, fun h => ?_⟩
  · exact Runs.of_exec (fun _ _ => of_decide_eq_true)
      [fcntl 1 0 .setlk 0 1 .wrlck false, fcntl 2 0 .setlk 1 1 .wrlck false,
        fcntl 1 0 .setlk 1 1 .wrlck true, fcntl 2 0 .setlk 0 1 .wrlck true]
      (by decide +kernel)
  · have h12 : WaitsFor .filedesc crossedWriters 1 2 := ⟨_, List.mem_cons_self .., _,
      List.mem_cons_self .., rfl, rfl, _, List.mem_cons_of_mem _ (List.mem_cons_self ..), rfl, rfl⟩
    have h21 : WaitsFor .filedesc crossedWriters 2 1 := ⟨_, List.mem_cons_self .., _,
      List.mem_cons_of_mem _ (List.mem_cons_self ..), rfl, rfl, _, List.mem_cons_self .., rfl, rfl⟩
    exact h 1 2 (by decide) (by decide) (.cons h12 (.cons h21 (.nil 1)))

end Obsd.Lf
