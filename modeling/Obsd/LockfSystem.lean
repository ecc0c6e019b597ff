import Obsd.LockfRuns

/-!
# The lock manager as a whole

What one step can do (`stepRet_cases` and the lemmas before it), that it
keeps every file in order if no remainder begins at a wrapped offset
(`FileInv.step`), and what follows for whole runs: the shape of the lock
lists, the effect of a request on the offsets its owner has locked, and
where the requests that sleep are queued.

`lf_end + 1` wraps for a range that ends at the largest `off_t`, and the
owner may have a lock to the end of the file that the range is cut out
of. `Fits` excludes just that.
-/

namespace Obsd.Lf

/-! ## What a step can do -/

section Cases

variable {s s' : Sys} {p : Nat} {lock : Lockf} {F F' : File} {ret : Ret}

/-- A request is refused, goes to sleep on the lock in its way, or is placed. -/
theorem lfSetlock_cases (h : lfSetlock s p lock F = (ret, F')) :
    (∃ block, lfGetblock lock F.locks = some block ∧
      (((ret = .eagain ∨ ret = .edeadlk) ∧ F' = lfFree lock.addr F)
        ∨ (ret = .sleeps ∧ lock.lfFlags.wait = true
          ∧ ¬(lock.lfFlags.posix && block.lfFlags.posix
              && deadlockWalk s lock.lfId maxlockdepth block.lfId) = true
          ∧ F' = enqueue p lock block
              (if lock.lfFlags.flock && decide (lock.lfType = .wrlck) then lfClearlock lock F
                else F))))
      ∨ (lfGetblock lock F.locks = none ∧ ret = .ok ∧ F' = place lock F) := by
  unfold lfSetlock at h
  split at h
  · rename_i block hblock
    refine .inl ⟨block, hblock, ?_⟩
    split at h
    · obtain ⟨rfl, rfl⟩ := Prod.mk.inj h
      exact .inl ⟨.inl rfl, rfl⟩
    · rename_i hwait
      split at h
      · obtain ⟨rfl, rfl⟩ := Prod.mk.inj h
        exact .inl ⟨.inr rfl, rfl⟩
      · rename_i hdead
        obtain ⟨rfl, rfl⟩ := Prod.mk.inj h
        exact .inr ⟨rfl, by simpa using hwait, hdead, rfl⟩
  · rename_i hnone
    obtain ⟨rfl, rfl⟩ := Prod.mk.inj h
    exact .inr ⟨hnone, rfl, rfl⟩

/-- A call ends at once, or allocates its lock and does what `op` says. -/
theorem lfAdvlock_cases {size : BitVec 64} {id : Caddr} {op : Op} {fl fl' : Flock} {flags : LFlags}
    {nolck : Bool} (h : lfAdvlock s p size id op fl flags nolck F = (ret, fl', F')) :
    (F' = F ∧ ((ret = .einval ∧ flockRange size fl = none) ∨ ret = .enolck
        ∨ (ret = .ok ∧ op ≠ .setlk ∧ F.locks = [])))
      ∨ ∃ range, flockRange size fl = some range
        ∧ ((op = .setlk
            ∧ lfSetlock s p (newLock p id fl flags range F) { F with next := F.next + 1 } = (ret, F'))
          ∨ (op = .unlck ∧ ret = .ok ∧ F' = lfFree F.next
              (lfClearlock (newLock p id fl flags range F) { F with next := F.next + 1 }))
          ∨ (op = .getlk ∧ ret = .ok ∧ F' = lfFree F.next { F with next := F.next + 1 })) := by
  unfold lfAdvlock at h
  split at h
  · rename_i hnone
    obtain ⟨rfl, h2⟩ := Prod.mk.inj h
    exact .inl ⟨(Prod.mk.inj h2).2.symm, .inl ⟨rfl, hnone⟩⟩
  · rename_i range hrange
    split at h
    · rename_i hempty
      obtain ⟨rfl, h2⟩ := Prod.mk.inj h
      exact .inl ⟨(Prod.mk.inj h2).2.symm, .inr (.inr ⟨rfl, hempty.2, hempty.1⟩)⟩
    · split at h
      · obtain ⟨rfl, h2⟩ := Prod.mk.inj h
        exact .inl ⟨(Prod.mk.inj h2).2.symm, .inr (.inl rfl)⟩
      · refine .inr ⟨range, hrange, ?_⟩
        cases op with
        | setlk =>
            obtain ⟨h1, h2⟩ := Prod.mk.inj h
            exact .inl ⟨rfl, Prod.ext h1 (Prod.mk.inj h2).2⟩
        | unlck =>
            obtain ⟨rfl, h2⟩ := Prod.mk.inj h
            exact .inr (.inl ⟨rfl, rfl, (Prod.mk.inj h2).2.symm⟩)
        | getlk =>
            obtain ⟨rfl, h2⟩ := Prod.mk.inj h
            exact .inr (.inr ⟨rfl, rfl, (Prod.mk.inj h2).2.symm⟩)

end Cases

/-- What a process brings back from `tsleep`. -/
def Resumed (s : Sys) (p f : Nat) (err : Bool) (F : File) (r : Sleeper) (ret : Ret) (F' : File) : Prop :=
  F.sleepers.find? (fun r => decide (r.proc = p)) = some r ∧ r.wchan = false
    ∧ ((err = true ∧ ret = .eintr ∧ F' = lfFree r.lock.addr (dequeue r F))
      ∨ (err = false ∧ lfSetlock (s.set f (dequeue r F)) p r.lock (dequeue r F) = (ret, F')))

theorem stepRet_cases {s s' : Sys} {a : Act} {ret : Ret} (h : stepRet s a = some (ret, s')) :
    ∃ f F F', s.files[f]? = some F ∧ s' = s.set f F'
      ∧ ((∃ p size id op fl fl' flags nolck, a = .advlock p f size id op fl flags nolck
            ∧ s.idle p = true ∧ lfAdvlock s p size id op fl flags nolck F = (ret, fl', F'))
        ∨ (∃ p, a = .signal p f ∧ F' = { F with
            sleepers := F.sleepers.map fun r => if r.proc = p then { r with wchan := false } else r })
        ∨ ∃ p err r, a = .resume p f err ∧ Resumed s p f err F r ret F') := by
  cases a with
  | advlock p f size id op fl flags nolck =>
      obtain ⟨F, hF, h⟩ := Option.bind_eq_some_iff.mp h
      split at h
      · rename_i hidle
        obtain ⟨rfl, rfl⟩ := Prod.mk.inj (Option.some.inj h)
        exact ⟨f, F, _, hF, rfl, .inl ⟨p, size, id, op, fl, _, flags, nolck, rfl, hidle, rfl⟩⟩
      · cases h
  | signal p f =>
      obtain ⟨F, hF, h⟩ := Option.bind_eq_some_iff.mp h
      obtain ⟨rfl, rfl⟩ := Prod.mk.inj (Option.some.inj h)
      exact ⟨f, F, _, hF, rfl, .inr (.inl ⟨p, rfl, rfl⟩)⟩
  | resume p f err =>
      obtain ⟨F, hF, h⟩ := Option.bind_eq_some_iff.mp h
      obtain ⟨r, hr, h⟩ := Option.bind_eq_some_iff.mp h
      split at h
      · cases h
      · rename_i hw
        have hw : r.wchan = false := by simpa using hw
        cases err with
        | true =>
            obtain ⟨rfl, rfl⟩ := Prod.mk.inj (Option.some.inj h)
            exact ⟨f, F, _, hF, rfl, .inr (.inr ⟨p, true, r, rfl, hr, hw, .inl ⟨rfl, rfl, rfl⟩⟩)⟩
        | false =>
            obtain ⟨rfl, rfl⟩ := Prod.mk.inj (Option.some.inj h)
            exact ⟨f, F, _, hF, rfl, .inr (.inr ⟨p, false, r, rfl, hr, hw, .inr ⟨rfl, rfl⟩⟩)⟩

/-! ## Requests in range -/

/-- What the callers pass: to unlock is an operation of its own. -/
def Called : Act → Prop
  | .advlock _ _ _ _ op fl _ _ => op = .setlk → fl.lType ≠ .unlck
  | _ => True

instance : DecidablePred Called
  | .advlock .. => inferInstanceAs (Decidable (_ → _))
  | .signal .. => inferInstanceAs (Decidable True)
  | .resume .. => inferInstanceAs (Decidable True)

/-- The request a step is about: the file, the operation and the lock. -/
def Act.request (s : Sys) : Act → Option (Nat × Op × Lockf)
  | .advlock p f size id op fl flags _ =>
    (s.files[f]?).bind fun F =>
      (flockRange size fl).map fun range => (f, op, newLock p id fl flags range F)
  | .resume p f false =>
    (s.files[f]?).bind fun F =>
      (F.sleepers.find? fun r => decide (r.proc = p)).map fun r => (f, .setlk, r.lock)
  | _ => none

/-- A request to lock that goes to sleep cuts nothing, but for `flock`. -/
def SetFits (lock : Lockf) (l : List Lockf) : Prop :=
  if (lfGetblock lock l).isSome then
    lock.lfFlags.wait && lock.lfFlags.flock && decide (lock.lfType = .wrlck) → ClearOk lock l
  else PlaceOk lock l

instance (lock : Lockf) (l : List Lockf) : Decidable (SetFits lock l) :=
  inferInstanceAs (Decidable (ite _ _ _))

def OpFits (op : Op) (lock : Lockf) (l : List Lockf) : Prop :=
  match op with
  | .setlk => SetFits lock l
  | .unlck => ClearOk lock l
  | .getlk => True

instance : (op : Op) → (lock : Lockf) → (l : List Lockf) → Decidable (OpFits op lock l)
  | .setlk, lock, l => inferInstanceAs (Decidable (SetFits lock l))
  | .unlck, lock, l => inferInstanceAs (Decidable (ClearOk lock l))
  | .getlk, _, _ => inferInstanceAs (Decidable True)

/-- The step cuts no range that ends at the largest `off_t` out of a lock of its
owner to the end of the file. -/
def Fits (s : Sys) (a : Act) : Prop :=
  ∀ q ∈ a.request s, ∀ F ∈ s.files[q.1]?, OpFits q.2.1 q.2.2 F.locks

instance (s : Sys) (a : Act) : Decidable (Fits s a) :=
  inferInstanceAs (Decidable (∀ _ ∈ _, ∀ _ ∈ _, _))

theorem Requeues.hit {g : Lockf → Lockf} (hg : Requeues g) {lock b : Lockf} :
    Hit lock (g b) ↔ Hit lock b := by
  obtain ⟨q, hq⟩ := hg b
  rw [hq]
  rfl

theorem Requeues.getblock_map {g : Lockf → Lockf} (hg : Requeues g) {lock : Lockf}
    (l : List Lockf) : lfGetblock lock (l.map g) = (lfGetblock lock l).map g := by
  have hblocks : (fun b => decide (Blocks lock b)) ∘ g = fun b => decide (Blocks lock b) := by
    funext b
    obtain ⟨q, hq⟩ := hg b
    simp only [Function.comp_apply, hq]
    rfl
  rw [lfGetblock_eq, lfGetblock_eq, List.find?_map, hblocks]

theorem Requeues.setFits {g : Lockf → Lockf} (hg : Requeues g) {lock : Lockf} {l : List Lockf}
    (h : SetFits lock l) : SetFits lock (l.map g) := by
  have hsome : (lfGetblock lock (l.map g)).isSome = (lfGetblock lock l).isSome := by
    rw [hg.getblock_map, Option.isSome_map]
  unfold SetFits at h ⊢
  rw [hsome]
  split at h
  · rename_i hblocked
    rw [if_pos hblocked]
    intro hw c hc hit
    obtain ⟨b, hb, rfl⟩ := List.mem_map.mp hc
    have := h hw b hb (hg.hit.mp hit)
    obtain ⟨q, hq⟩ := hg b
    rw [hq]
    exact this
  · rename_i hfree
    rw [if_neg hfree]
    intro c hc hit
    obtain ⟨b, hb, rfl⟩ := List.mem_map.mp hc
    have := h b hb (hg.hit.mp hit)
    obtain ⟨q, hq⟩ := hg b
    rw [hq]
    exact this

theorem flockRange_ranged {size : BitVec 64} {fl : Flock} {range : Int × Int}
    (h : flockRange size fl = some range) (p : Nat) (id : Caddr) (flags : LFlags) (F : File) :
    (newLock p id fl flags range F).Ranged := by
  obtain ⟨start, -, h⟩ := Option.bind_eq_some_iff.mp h
  have hlt := BitVec.toInt_lt (x := start)
  split at h
  · cases h
  · rename_i h0
    have hstart : 0 ≤ start.toInt ∧ start.toInt ≤ offMax := by
      unfold offMax
      omega
    split at h
    · obtain rfl := Option.some.inj h
      exact ⟨hstart, .inl rfl⟩
    · dsimp only at h
      split at h
      · cases h
      · rename_i hle
        obtain rfl := Option.some.inj h
        have hlt' := BitVec.toInt_lt (x := start + fl.lLen - 1#64)
        refine ⟨hstart, .inr ⟨?_, ?_⟩⟩
        · show start.toInt ≤ (start + fl.lLen - 1#64).toInt
          omega
        · show (start + fl.lLen - 1#64).toInt ≤ offMax
          unfold offMax
          omega

/-! ## Steps keep the files in order -/

section Keep

variable {s s' : Sys} {p : Nat} {lock : Lockf} {F F' : File} {ret : Ret}

/-- Of a request that is blocked. -/
theorem getblock_some {block : Lockf} {l : List Lockf} (h : lfGetblock lock l = some block) :
    block ∈ l ∧ Blocks lock block := by
  rw [lfGetblock_eq] at h
  exact ⟨List.mem_of_find?_eq_some h, by simpa using List.find?_some h⟩

/-- Clearing for oneself leaves the locks of others. -/
theorem mem_lfClearlock {b : Lockf} (hv : ∀ b ∈ F.locks, b.Valid) (hs : Sorted F.locks)
    (hb : b ∈ F.locks) (hne : b.lfId ≠ lock.lfId) : b ∈ (lfClearlock lock F).locks := by
  obtain ⟨tail, S', freed', heq, hw⟩ := lfClearlock_walked hv hs
  rw [heq, hw.tail]
  exact mem_carveAll_of_not_hit hb fun hit => hne hit.1

theorem FileInv.setlock (h : FileInv F [lock]) (hty : lock.lfType ≠ .unlck)
    (hfit : SetFits lock F.locks) (hset : lfSetlock s p lock F = (ret, F')) : FileInv F' [] := by
  unfold SetFits at hfit
  rcases lfSetlock_cases hset with ⟨block, hblock, ⟨-, rfl⟩ | ⟨-, hwait, -, rfl⟩⟩ | ⟨hnone, -, rfl⟩
  · exact h.free
  · rw [hblock, if_pos Option.isSome_some] at hfit
    obtain ⟨hmem, hblk⟩ := getblock_some hblock
    split
    · rename_i hflock
      have hok : ClearOk lock F.locks := by
        refine hfit ?_
        rw [hwait, Bool.true_and]
        exact hflock
      exact (h.clear hok).enqueue p hty (mem_lfClearlock h.valid h.sorted hmem hblk.1) hblk
    · exact h.enqueue p hty hmem hblk
  · rw [hnone, if_neg (by simp)] at hfit
    exact h.place hty hnone hfit

theorem FileInv.advlock {size : BitVec 64} {id : Caddr} {op : Op} {fl fl' : Flock} {flags : LFlags}
    {nolck : Bool} (h : FileInv F []) (hty : op = .setlk → fl.lType ≠ .unlck)
    (hfit : ∀ range, flockRange size fl = some range →
      OpFits op (newLock p id fl flags range F) F.locks)
    (hadv : lfAdvlock s p size id op fl flags nolck F = (ret, fl', F')) : FileInv F' [] := by
  rcases lfAdvlock_cases hadv with ⟨rfl, -⟩ | ⟨range, hrange, hop⟩
  · exact h
  · have halloc : FileInv { F with next := F.next + 1 } [newLock p id fl flags range F] :=
      h.alloc (flockRange_ranged hrange p id flags F) rfl rfl
    have hfit := hfit range hrange
    rcases hop with ⟨rfl, hset⟩ | ⟨rfl, -, rfl⟩ | ⟨rfl, -, rfl⟩
    · exact halloc.setlock (hty rfl) hfit hset
    · exact (halloc.clear hfit).free
    · exact halloc.free

theorem FileInv.resume {f : Nat} {err : Bool} {r : Sleeper} (h : FileInv F [])
    (hfit : err = false → SetFits r.lock F.locks) (hres : Resumed s p f err F r ret F') :
    FileInv F' [] := by
  obtain ⟨hfind, -, hend⟩ := hres
  have hr : r ∈ F.sleepers := List.mem_of_find?_eq_some hfind
  have hdeq := h.dequeue hr
  rcases hend with ⟨-, -, rfl⟩ | ⟨rfl, hset⟩
  · exact hdeq.free
  · exact hdeq.setlock (h.request r hr).1.type ((requeues_dequeued r).setFits (hfit rfl)) hset

/-- Every file is in order. -/
def SysInv (s : Sys) : Prop := ∀ F ∈ s.files, FileInv F []

theorem SysInv.step {a : Act} (h : SysInv s) (hcall : Called a) (hfit : Fits s a)
    (hstep : stepRet s a = some (ret, s')) : SysInv s' := by
  obtain ⟨f, F, F', hF, rfl, hcases⟩ := stepRet_cases hstep
  have hinv : FileInv F [] := h F (List.mem_of_getElem? hF)
  have hkeep : FileInv F' [] := by
    rcases hcases with ⟨p, size, id, op, fl, fl', flags, nolck, rfl, -, hadv⟩ | ⟨p, -, rfl⟩
      | ⟨p, err, r, rfl, hres⟩
    · refine hinv.advlock hcall ?_ hadv
      intro range hrange
      refine hfit (f, op, _) ?_ F hF
      simp only [Act.request, hF, hrange]
      rfl
    · exact hinv.signal p
    · refine hinv.resume ?_ hres
      rintro rfl
      refine hfit (f, .setlk, _) ?_ F hF
      simp only [Act.request, hF, Option.bind_some, hres.1]
      rfl
  intro G hG
  rcases List.mem_or_eq_of_mem_set hG with hG | rfl
  · exact h G hG
  · exact hkeep

/-- `n` files without locks. -/
def init (n : Nat) : Sys := ⟨List.replicate n {}⟩

theorem sysInv_init (n : Nat) : SysInv (init n) := by
  intro F hF
  obtain rfl := List.eq_of_mem_replicate hF
  refine ⟨by simp, List.Pairwise.nil, ?_, ⟨by simp, by simp, by simp, by simp⟩, by simp, by simp, ?_⟩
  · rintro o o' x t t' - ⟨b, hb, -⟩
    cases hb
  · exact ⟨List.nodup_nil, by simp [File.addrs], by simp⟩

theorem SysInv.runs {n : Nat} (h : Runs Lf.step (fun s a => Called a ∧ Fits s a) (init n) s) :
    SysInv s := by
  refine h.invariant ?_ (sysInv_init n)
  intro s a s' hok hstep hinv
  obtain ⟨⟨ret, t⟩, hret, rfl⟩ := Option.map_eq_some_iff.mp hstep
  exact hinv.step hok.1 hok.2 hret

end Keep

/-! ## The lock lists -/

/-- The locks of one owner are disjoint and in order, and those of two owners meet
only if both are for reading. -/
structure InOrder (l : List Lockf) : Prop where
  own : ∀ o, (l.filter fun b => decide (b.lfId = o)).Pairwise fun a b =>
    a.lfStart < b.lfStart ∧ ¬∃ x, a.Covers x ∧ b.Covers x
  shared : ∀ a ∈ l, ∀ b ∈ l, a.lfId ≠ b.lfId → (∃ x, a.Covers x ∧ b.Covers x) →
    a.lfType = .rdlck ∧ b.lfType = .rdlck

theorem FileInv.inOrder {F : File} {hand : List Lockf} (h : FileInv F hand) : InOrder F.locks := by
  refine ⟨?_, ?_⟩
  · intro o
    refine (h.sorted.sublist List.filter_sublist).imp_of_mem ?_
    intro a b ha hb hab
    obtain ⟨hal, hao⟩ := List.mem_filter.mp ha
    have hbo := (List.mem_filter.mp hb).2
    have hbefore := hab ((of_decide_eq_true hao).trans (of_decide_eq_true hbo).symm)
    refine ⟨?_, fun ⟨x, hax, hbx⟩ => hbefore.no_common hax hbx⟩
    have hend := (h.valid a hal).end_
    obtain ⟨h1, h2⟩ := hbefore
    omega
  · rintro a ha b hb hne ⟨x, hax, hbx⟩
    exact h.compatible _ _ x _ _ hne ⟨a, ha, rfl, hax, rfl⟩ ⟨b, hb, rfl, hbx, rfl⟩

/-- In every run whose requests fit, the lists of all files are in order. -/
theorem lock_lists_runs {n : Nat} {s : Sys}
    (h : Runs Lf.step (fun s a => Called a ∧ Fits s a) (init n) s) :
    ∀ F ∈ s.files, InOrder F.locks :=
  fun F hF => (SysInv.runs h F hF).inOrder

/-- A POSIX request by a process for locks owned by `own` of it. -/
def posixLock (own : Nat → Caddr) (p f : Nat) (op : Op) (lStart lLen : BitVec 64) (lType : LType)
    (wait : Bool) : Act :=
  .advlock p f 0 (own p) op { lStart, lLen, lType } { wait, posix := true } false

/-- A call of `fcntl`, which passes the table of open files as the owner. -/
def fcntl : (p f : Nat) → Op → (lStart lLen : BitVec 64) → LType → (wait : Bool) → Act :=
  posixLock .filedesc

/-- A reader's lock on all of the file, the tail of which another process may read
too after its owner has cut it. -/
theorem lock_lists_shared :
    InOrder [⟨0, { posix := true }, .rdlck, 0, 9, .filedesc 1, 1, []⟩,
      ⟨4, { posix := true }, .rdlck, 5, -1, .filedesc 2, 2, []⟩] := by
  have hrun : Runs Lf.step (fun s a => Called a ∧ Fits s a) (init 1)
      ⟨[{ locks := [⟨0, { posix := true }, .rdlck, 0, 9, .filedesc 1, 1, []⟩,
            ⟨4, { posix := true }, .rdlck, 5, -1, .filedesc 2, 2, []⟩]
          next := 6
          freed := [2] }]⟩ :=
    Runs.of_exec (fun _ _ => of_decide_eq_true)
      [fcntl 1 0 .setlk 0 0 .rdlck false, fcntl 1 0 .unlck 10 0 .unlck false,
        fcntl 2 0 .setlk 5 0 .rdlck false]
      (by decide +kernel)
  exact lock_lists_runs hrun _ (List.mem_singleton_self _)

/-- A writer's range up to the largest `off_t`, cut out of a lock to the end of the
file, leaves a remainder that begins below zero. -/
theorem lock_lists_wrap :
    ∃ s, Runs Lf.step (fun _ a => Called a) (init 1) s ∧ ∃ F ∈ s.files, ¬InOrder F.locks := by
  refine ⟨⟨[⟨[⟨0, { posix := true }, .rdlck, 0, 0, .filedesc 1, 1, []⟩,
      ⟨2, { posix := true }, .wrlck, 1, offMax, .filedesc 1, 1, []⟩,
      ⟨3, { posix := true }, .rdlck, -2 ^ 63, -1, .filedesc 1, 1, []⟩], [], 4, []⟩]⟩,
    ?_, _, List.mem_singleton_self _, ?_⟩
  · exact Runs.of_exec (fun _ _ => of_decide_eq_true)
      [fcntl 1 0 .setlk 0 0 .rdlck false, fcntl 1 0 .setlk 1 (BitVec.ofNat 64 (2 ^ 63 - 1)) .wrlck false]
      (by decide +kernel)
  · intro h
    have hown := h.own (.filedesc 1)
    have hlast := (List.pairwise_cons.mp (List.pairwise_cons.mp hown).2).1 _ (List.mem_cons_self ..)
    exact absurd hlast.1 (by decide)

/-! ## The effect of a request -/

/-- How an offset in the range is locked for the owner of the request when the call
returns, or goes to sleep. -/
def modeAfter (op : Op) (ret : Ret) (lock : Lockf) (old : Option LType) : Option LType :=
  match op, ret with
  | .setlk, .ok => some lock.lfType
  -- who waits with `flock` for an exclusive lock gives up what it has
  | .setlk, .sleeps => if lock.lfFlags.flock && decide (lock.lfType = .wrlck) then none else old
  | .unlck, .ok => none
  | _, _ => old

/-- The range of `lock` has changed for its owner to what `new` makes of it, and
nothing else has changed. -/
def Changes (lock : Lockf) (new : Option LType → Option LType) (l l' : List Lockf) : Prop :=
  ∀ o x, mode l' o x = if o = lock.lfId ∧ lock.Covers x then new (mode l o x) else mode l o x

section Effect

variable {s s' : Sys} {p : Nat} {lock : Lockf} {F F' : File} {ret : Ret}

theorem Requeues.mode_map {g : Lockf → Lockf} (hg : Requeues g) (l : List Lockf) (o : Caddr) (x : Int) :
    mode (l.map g) o x = mode l o x := by
  have hsame : ∀ b, (g b).lfId = b.lfId ∧ (g b).lfType = b.lfType ∧ ((g b).Covers x ↔ b.Covers x) := by
    intro b
    obtain ⟨q, hq⟩ := hg b
    rw [hq]
    exact ⟨rfl, rfl, Iff.rfl⟩
  have hfind : (fun b => decide (b.lfId = o ∧ b.Covers x)) ∘ g
      = fun b => decide (b.lfId = o ∧ b.Covers x) := by
    funext b
    simp only [Function.comp_apply, (hsame b).1, (hsame b).2.2]
  unfold mode
  rw [List.find?_map, hfind, Option.map_map]
  congr 1
  funext b
  exact (hsame b).2.1

theorem changes_same {new : Option LType → Option LType} {l l' : List Lockf}
    (hmode : ∀ o x, mode l' o x = mode l o x) (hnew : ∀ old, new old = old) : Changes lock new l l' := by
  intro o x
  rw [hmode, hnew, ite_self]

theorem FileInv.setlock_changes (h : FileInv F [lock]) (hfit : SetFits lock F.locks)
    (hset : lfSetlock s p lock F = (ret, F')) :
    Changes lock (modeAfter .setlk ret lock) F.locks F'.locks := by
  obtain ⟨hl, -⟩ := h.inHand lock (by simp)
  unfold SetFits at hfit
  rcases lfSetlock_cases hset with ⟨block, hblock, ⟨hret, rfl⟩ | ⟨rfl, hwait, -, rfl⟩⟩
    | ⟨hnone, rfl, rfl⟩
  · refine changes_same (fun o x => rfl) fun old => ?_
    rcases hret with rfl | rfl
    · rfl
    · rfl
  · rw [hblock, if_pos Option.isSome_some] at hfit
    have henq : ∀ (G : File) o x, mode (Lf.enqueue p lock block G).locks o x = mode G.locks o x :=
      fun G => (requeues_enqueued lock.addr block).mode_map G.locks
    intro o x
    rw [henq]
    simp only [modeAfter]
    split
    · rename_i hflock
      have hok : ClearOk lock F.locks := by
        refine hfit ?_
        rw [hwait, Bool.true_and]
        exact hflock
      exact lfClearlock_mode h.valid hl h.sorted hok o x
    · rw [ite_self]
  · rw [hnone, if_neg (by simp)] at hfit
    exact place_mode h.valid hl h.sorted hfit

theorem FileInv.advlock_changes {size : BitVec 64} {id : Caddr} {op : Op} {fl fl' : Flock}
    {flags : LFlags} {nolck : Bool} {range : Int × Int} (h : FileInv F [])
    (hrange : flockRange size fl = some range)
    (hfit : OpFits op (newLock p id fl flags range F) F.locks)
    (hadv : lfAdvlock s p size id op fl flags nolck F = (ret, fl', F')) :
    Changes (newLock p id fl flags range F) (modeAfter op ret (newLock p id fl flags range F))
      F.locks F'.locks := by
  have halloc : FileInv { F with next := F.next + 1 } [newLock p id fl flags range F] :=
    h.alloc (flockRange_ranged hrange p id flags F) rfl rfl
  rcases lfAdvlock_cases hadv with ⟨rfl, hret⟩ | ⟨range', hrange', hop⟩
  · intro o x
    rcases hret with ⟨rfl, -⟩ | rfl | ⟨rfl, hop, hnil⟩
    · cases op <;> exact (ite_self _).symm
    · cases op <;> exact (ite_self _).symm
    · have hnone : mode F'.locks o x = none := by
        rw [hnil]
        rfl
      cases op with
      | setlk => exact (hop rfl).elim
      | unlck => simp [hnone, modeAfter]
      | getlk => exact (ite_self _).symm
  · obtain rfl : range' = range := Option.some.inj (hrange'.symm.trans hrange)
    rcases hop with ⟨rfl, hset⟩ | ⟨rfl, rfl, rfl⟩ | ⟨rfl, rfl, rfl⟩
    · exact halloc.setlock_changes hfit hset
    · exact lfClearlock_mode halloc.valid (flockRange_ranged hrange p id flags F) halloc.sorted hfit
    · exact changes_same (fun o x => rfl) fun old => rfl

theorem FileInv.resume_changes {f : Nat} {r : Sleeper} (h : FileInv F [])
    (hfit : SetFits r.lock F.locks) (hres : Resumed s p f false F r ret F') :
    Changes r.lock (modeAfter .setlk ret r.lock) F.locks F'.locks := by
  obtain ⟨hfind, -, hend⟩ := hres
  have hdeq := h.dequeue (List.mem_of_find?_eq_some hfind)
  have hg := requeues_dequeued r
  rcases hend with ⟨herr, -⟩ | ⟨-, hset⟩
  · cases herr
  · intro o x
    have hch := hdeq.setlock_changes (hg.setFits hfit) hset o x
    have hmode : mode (Lf.dequeue r F).locks o x = mode F.locks o x := hg.mode_map F.locks o x
    rw [hmode] at hch
    exact hch

end Effect

/-- In every run whose requests fit, a call gives the offsets of its range the type it
asked for, or unlocks them, for its owner, and changes nothing else. -/
theorem request_mode_runs {n : Nat} {s s' : Sys} {a : Act} {ret : Ret} {f : Nat} {op : Op}
    {lock : Lockf} {F : File}
    (h : Runs Lf.step (fun s a => Called a ∧ Fits s a) (init n) s) (hfit : Fits s a)
    (hstep : stepRet s a = some (ret, s')) (hreq : a.request s = some (f, op, lock))
    (hF : s.files[f]? = some F) :
    (∀ g, g ≠ f → s'.files[g]? = s.files[g]?)
      ∧ ∃ F', s'.files[f]? = some F' ∧ Changes lock (modeAfter op ret lock) F.locks F'.locks := by
  have hfits := hfit _ hreq F hF
  obtain ⟨g, G, F', hG, rfl, hcases⟩ := stepRet_cases hstep
  have hinv : FileInv G [] := SysInv.runs h G (List.mem_of_getElem? hG)
  -- the file of the step is the file of the request
  have hsame : f = g ∧ Changes lock (modeAfter op ret lock) G.locks F'.locks := by
    rcases hcases with ⟨p, size, id, op', fl, fl', flags, nolck, rfl, -, hadv⟩ | ⟨p, rfl, -⟩
      | ⟨p, err, r, rfl, hres⟩
    · simp only [Act.request, hG, Option.bind_some, Option.map_eq_some_iff] at hreq
      obtain ⟨range, hrange, heq⟩ := hreq
      obtain ⟨rfl, heq2⟩ := Prod.mk.inj heq
      obtain ⟨rfl, rfl⟩ := Prod.mk.inj heq2
      obtain rfl : F = G := Option.some.inj (hF.symm.trans hG)
      exact ⟨rfl, hinv.advlock_changes hrange hfits hadv⟩
    · cases hreq
    · cases err with
      | true => cases hreq
      | false =>
          simp only [Act.request, hG, Option.bind_some, hres.1, Option.map_some] at hreq
          obtain ⟨rfl, heq2⟩ := Prod.mk.inj (Option.some.inj hreq)
          obtain ⟨rfl, rfl⟩ := Prod.mk.inj heq2
          obtain rfl : F = G := Option.some.inj (hF.symm.trans hG)
          exact ⟨rfl, hinv.resume_changes hfits hres⟩
  obtain ⟨rfl, hch⟩ := hsame
  obtain rfl : F = G := Option.some.inj (hF.symm.trans hG)
  refine ⟨fun g hg => List.getElem?_set_ne hg.symm, F', ?_, hch⟩
  exact List.getElem?_set_self (List.getElem?_eq_some_iff.mp hF).1

/-- A reader becomes a writer in the middle of its lock. -/
theorem request_mode_upgrade :
    Changes ⟨2, { posix := true }, .wrlck, 10, 19, .filedesc 1, 1, []⟩ (fun _ => some .wrlck)
      [⟨0, { posix := true }, .rdlck, 0, -1, .filedesc 1, 1, []⟩]
      [⟨0, { posix := true }, .rdlck, 0, 9, .filedesc 1, 1, []⟩,
        ⟨2, { posix := true }, .wrlck, 10, 19, .filedesc 1, 1, []⟩,
        ⟨3, { posix := true }, .rdlck, 20, -1, .filedesc 1, 1, []⟩] := by
  have hrun : Runs Lf.step (fun s a => Called a ∧ Fits s a) (init 1)
      ⟨[⟨[⟨0, { posix := true }, .rdlck, 0, -1, .filedesc 1, 1, []⟩], [], 2, []⟩]⟩ :=
    Runs.of_exec (fun _ _ => of_decide_eq_true) [fcntl 1 0 .setlk 0 0 .rdlck false] (by decide +kernel)
  have hstep : stepRet ⟨[⟨[⟨0, { posix := true }, .rdlck, 0, -1, .filedesc 1, 1, []⟩], [], 2, []⟩]⟩
      (fcntl 1 0 .setlk 10 10 .wrlck false) = some (.ok,
        ⟨[⟨[⟨0, { posix := true }, .rdlck, 0, 9, .filedesc 1, 1, []⟩,
          ⟨2, { posix := true }, .wrlck, 10, 19, .filedesc 1, 1, []⟩,
          ⟨3, { posix := true }, .rdlck, 20, -1, .filedesc 1, 1, []⟩], [], 4, []⟩]⟩) := by
    decide +kernel
  have hreq : (fcntl 1 0 .setlk 10 10 .wrlck false).request
      ⟨[⟨[⟨0, { posix := true }, .rdlck, 0, -1, .filedesc 1, 1, []⟩], [], 2, []⟩]⟩
      = some (0, .setlk, ⟨2, { posix := true }, .wrlck, 10, 19, .filedesc 1, 1, []⟩) := by
    decide +kernel
  obtain ⟨-, F', hF', hch⟩ := request_mode_runs hrun (by decide +kernel) hstep hreq rfl
  obtain rfl := Option.some.inj hF'
  exact hch

/-- Unlocking all but the first byte, up to the largest `off_t`, of a lock to the end of
the file leaves every byte locked. -/
theorem request_mode_wrap :
    ∃ s s' a F F' lock, Runs Lf.step (fun _ a => Called a) (init 1) s ∧ Called a
      ∧ stepRet s a = some (.ok, s') ∧ a.request s = some (0, .unlck, lock)
      ∧ s.files[0]? = some F ∧ s'.files[0]? = some F'
      ∧ ¬Changes lock (modeAfter .unlck .ok lock) F.locks F'.locks := by
  refine ⟨⟨[⟨[⟨0, { posix := true }, .rdlck, 0, -1, .filedesc 1, 1, []⟩], [], 2, []⟩]⟩,
    ⟨[⟨[⟨0, { posix := true }, .rdlck, 0, 0, .filedesc 1, 1, []⟩,
      ⟨3, { posix := true }, .rdlck, -2 ^ 63, -1, .filedesc 1, 1, []⟩], [], 4, [2]⟩]⟩,
    fcntl 1 0 .unlck 1 (BitVec.ofNat 64 (2 ^ 63 - 1)) .unlck false, _, _,
    ⟨2, { posix := true }, .unlck, 1, offMax, .filedesc 1, 1, []⟩, ?_, by decide, by decide +kernel,
    by decide +kernel, rfl, rfl, ?_⟩
  · exact Runs.of_exec (fun _ _ => of_decide_eq_true) [fcntl 1 0 .setlk 0 0 .rdlck false]
      (by decide +kernel)
  · intro h
    exact absurd (h (.filedesc 1) 5) (by decide +kernel)

/-! ## Who sleeps -/

/-- The request is queued once, on the lock its `lf_next` points to, which is linked and
not freed, belongs to another owner and is in its way. -/
def QueuedOn (F : File) (r : Sleeper) (b : Lockf) : Prop :=
  r.lfNext = some b.addr ∧ b.addr ∉ F.freed ∧ b.lfBlkhd.count r.lock.addr = 1
    ∧ (∀ c ∈ F.locks, r.lock.addr ∈ c.lfBlkhd → c = b)
    ∧ b.lfId ≠ r.lock.lfId ∧ (∃ x, b.Covers x ∧ r.lock.Covers x)
    ∧ (r.lock.lfType = .wrlck ∨ b.lfType = .wrlck)

theorem FileInv.queuedOn {F : File} {r : Sleeper} {a : Nat} (h : FileInv F []) (hr : r ∈ F.sleepers)
    (ha : r.lfNext = some a) : ∃ b ∈ F.locks, QueuedOn F r b := by
  obtain ⟨b, hb, rfl, hmem, hne, hover, hw⟩ := h.queue.waits r hr a ha
  refine ⟨b, hb, ha, ?_, ?_, ?_, hne, ?_, hw⟩
  · refine (h.addrs.live b.addr ?_).2
    exact List.mem_append_left _ (List.mem_map.mpr ⟨b, hb, rfl⟩)
  · exact List.count_eq_one_of_mem (h.queue.nodup b hb) hmem
  · intro c hc hrc
    exact h.queue.unique h.lockAddrs h.sleeperAddrs hc hb hrc hmem
  · rw [Ne, ovCase_noOverlap] at hover
    exact exists_common (h.valid b hb) (h.request r hr).1 hover

/-- In every run whose requests fit, every process that sleeps is queued on one lock that
is in its way, so its request is blocked, and no request, whether its process still sleeps
or not, refers to a lock that is not linked. -/
theorem sleepers_runs {n : Nat} {s : Sys}
    (h : Runs Lf.step (fun s a => Called a ∧ Fits s a) (init n) s) :
    ∀ F ∈ s.files, ∀ r ∈ F.sleepers,
      (r.wchan = true → (∃ b ∈ F.locks, QueuedOn F r b) ∧ (lfGetblock r.lock F.locks).isSome = true)
        ∧ ∀ a, r.lfNext = some a → ∃ b ∈ F.locks, b.addr = a ∧ a ∉ F.freed := by
  intro F hF r hr
  have hinv := SysInv.runs h F hF
  refine ⟨fun hwc => ?_, fun a ha => ?_⟩
  · obtain ⟨a, ha⟩ := Option.isSome_iff_exists.mp (hinv.queue.asleep r hr hwc)
    refine ⟨hinv.queuedOn hr ha, ?_⟩
    obtain ⟨b, hb, -, -, hblk⟩ := hinv.queue.waits r hr a ha
    rw [lfGetblock_eq, List.find?_isSome]
    exact ⟨b, hb, by simpa using hblk⟩
  · obtain ⟨b, hb, hnext, hlive, -⟩ := hinv.queuedOn hr ha
    obtain rfl : b.addr = a := Option.some.inj (hnext.symm.trans ha)
    exact ⟨b, hb, rfl, hlive⟩

/-- A reader that waits for a writer. -/
theorem sleepers_reader_waits :
    ∃ b, QueuedOn
      ⟨[⟨0, { posix := true }, .wrlck, 0, 9, .filedesc 1, 1, [2]⟩],
        [⟨2, ⟨2, { wait := true, posix := true }, .rdlck, 5, -1, .filedesc 2, 2, []⟩, some 0, true⟩],
        3, []⟩
      ⟨2, ⟨2, { wait := true, posix := true }, .rdlck, 5, -1, .filedesc 2, 2, []⟩, some 0, true⟩ b := by
  have hrun : Runs Lf.step (fun s a => Called a ∧ Fits s a) (init 1)
      ⟨[⟨[⟨0, { posix := true }, .wrlck, 0, 9, .filedesc 1, 1, [2]⟩],
        [⟨2, ⟨2, { wait := true, posix := true }, .rdlck, 5, -1, .filedesc 2, 2, []⟩, some 0, true⟩],
        3, []⟩]⟩ :=
    Runs.of_exec (fun _ _ => of_decide_eq_true)
      [fcntl 1 0 .setlk 0 10 .wrlck false, fcntl 2 0 .setlk 5 0 .rdlck true] (by decide +kernel)
  have hwaits := sleepers_runs hrun _ (List.mem_singleton_self _) _ (List.mem_singleton_self _)
  obtain ⟨⟨b, -, hb⟩, -⟩ := hwaits.1 rfl
  exact ⟨b, hb⟩

/-- Where a list is out of order, a lock with a waiter can be given back: the new lock
takes the waiter over and is then found to lie in the remainder that begins below zero. -/
theorem sleepers_freed_lock :
    ∃ s, Runs Lf.step (fun _ a => Called a) (init 1) s ∧ ∃ F ∈ s.files, ∃ r ∈ F.sleepers,
      r.wchan = true ∧ ¬∃ b ∈ F.locks, QueuedOn F r b := by
  refine ⟨⟨[⟨[⟨5, { posix := true }, .rdlck, 0, -1, .filedesc 1, 1, [4]⟩,
      ⟨3, { posix := true }, .rdlck, -2 ^ 63, -1, .filedesc 1, 1, []⟩],
      [⟨2, ⟨4, { wait := true, posix := true }, .wrlck, 0, 0, .filedesc 2, 2, []⟩, some 5, true⟩],
      7, [5, 2, 0]⟩]⟩, ?_, _, List.mem_singleton_self _, _, List.mem_singleton_self _, rfl, ?_⟩
  · exact Runs.of_exec (fun _ _ => of_decide_eq_true)
      [fcntl 1 0 .setlk 0 0 .rdlck false, fcntl 1 0 .setlk 1 (BitVec.ofNat 64 (2 ^ 63 - 1)) .wrlck false,
        fcntl 2 0 .setlk 0 1 .wrlck true, fcntl 1 0 .setlk 0 0 .rdlck false]
      (by decide +kernel)
  · rintro ⟨b, -, hnext, hlive, -⟩
    have haddr : b.addr = 5 := (Option.some.inj hnext).symm
    exact hlive (by simp [haddr])

end Obsd.Lf
