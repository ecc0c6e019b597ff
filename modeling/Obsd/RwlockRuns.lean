import Obsd.Rwlock

/-!
# Interleavings on one reader/writer lock

What every process may rely on between two of its steps: what it holds,
what the word it loaded told it, and whether it has the scheduler lock.
`Sound` lists what one step has to see to for this to stay true of all of
them, `next_sound` goes through the steps, and `rwlock_safe` is what comes
out for whole runs. The one thing the code does not look after is the
count itself: the readers have to fit in it.
-/

namespace Obsd.Rwlock

open Tagged

variable {w : Nat} {P : Type*} [DecidableEq P]
variable {addr : P → BitVec w} {o : BitVec w} {rd wr : Multiset P} {f : Nat} {p : P}

/-! ## The invariant -/

/-- What a process at this point holds. -/
def Pc.Entitled (rd wr : Multiset P) (p : P) : Pc w → Prop
  | .enter f | .setup f _ | .setupSignal f _ | .stopped f _ _ | .waitCas f _ _ | .finish f _ _
  | .asleep f | .woken f | .acquire f _ => f.op = .downgrade → p ∈ wr
  | .exitRead | .exitReadCas _ => p ∈ rd
  | .exitWrite | .exitWriteCas _ => p ∈ wr
  | .exit => p ∈ rd ∨ p ∈ wr
  | .exitLoop wrlock | .exitCas wrlock _ => if wrlock then p ∈ wr else p ∈ rd
  | _ => True

/-- What it knows of the word it has loaded. -/
def Pc.Loaded : Pc w → Prop
  | .enterReadCas o => o &&& rwlockWrlock w = 0#w
  | .setup f o | .setupSignal f o | .stopped f o _ | .waitCas f o _ => o &&& (rwOps f.op).check ≠ 0#w
  | .acquire f o => o &&& (rwOps f.op).check = 0#w
  | .exitReadCas o | .exitWriteCas o => o &&& rwlockWait w = 0#w
  | _ => True

/-- It has the scheduler lock. -/
def Pc.Locked : Pc w → Prop
  | .setupSignal _ _ | .waitCas _ _ _ | .finish _ _ _ => True
  | _ => False

/-- It sleeps, or it is about to. -/
def Pc.Sleeping : Pc w → Prop
  | .asleep _ => True
  | .finish _ slsDoSleep doSleep => slsDoSleep = true ∧ doSleep = true
  | _ => False

/-- A sleeper is known to the lock, or to a process about to wake it. -/
def Noted (s : Sys P w) : Prop := s.owner &&& rwlockWait w ≠ 0#w ∨ ∃ q, s.pc q = .exitWake

structure Inv (addr : P → BitVec w) (s : Sys P w) : Prop where
  layout : ∃ f, Layout addr s.owner s.rd s.wr f
  entitled : ∀ p, (s.pc p).Entitled s.rd s.wr p
  loaded : ∀ p, (s.pc p).Loaded
  locked : ∀ p, (s.pc p).Locked → s.sched = some p
  noted : ∀ p, (s.pc p).Sleeping → Noted s

/-- The count of readers has room for them. -/
def Fits (s : Sys P w) : Prop := s.rd.card < 2 ^ (w - 3)

/-- What a step of `p` has to see to. The waiter flags can only go when `p` wakes the
sleepers later, and a wakeup finds nobody half asleep. -/
structure Sound (addr : P → BitVec w) (s : Sys P w) (p : P) (e : Effect P w) : Prop where
  layout : ∃ f, Layout addr e.owner (e.hold.rd p s.rd) (e.hold.wr p s.wr) f
  entitled : e.pc.Entitled (e.hold.rd p s.rd) (e.hold.wr p s.wr) p
  loaded : e.pc.Loaded
  locked : e.pc.Locked → e.sched = some p
  sched : e.sched = s.sched ∨ s.sched = none ∨ s.sched = some p
  sleeping : e.pc.Sleeping → e.owner &&& rwlockWait w ≠ 0#w ∨ (s.pc p).Sleeping ∧ e.wakeup = false
  noted : s.owner &&& rwlockWait w ≠ 0#w → e.owner &&& rwlockWait w ≠ 0#w ∨ e.pc = .exitWake
  wakes : s.pc p = .exitWake → e.wakeup = true
  wakeup : e.wakeup = true → s.sched = none

/-! ### What a sound step keeps -/

variable {s s' : Sys P w} {q : P} {e : Effect P w}

theorem Hold.mem_rd (h : Hold) (hq : q ≠ p) : q ∈ h.rd p rd ↔ q ∈ rd := by
  cases h with
  | takeRead | downgrade => exact Multiset.mem_cons.trans (or_iff_right hq)
  | dropRead => exact Multiset.mem_erase_of_ne hq
  | keep | takeWrite | dropWrite => exact Iff.rfl

theorem Hold.mem_wr (h : Hold) (hq : q ≠ p) : q ∈ h.wr p wr ↔ q ∈ wr := by
  cases h with
  | takeWrite => exact Multiset.mem_cons.trans (or_iff_right hq)
  | dropWrite | downgrade => exact Multiset.mem_erase_of_ne hq
  | keep | takeRead | dropRead => exact Iff.rfl

omit [DecidableEq P] in
theorem Pc.Entitled.congr {rd' wr' : Multiset P} {pc : Pc w} (h : pc.Entitled rd wr p)
    (hrd : p ∈ rd' ↔ p ∈ rd) (hwr : p ∈ wr' ↔ p ∈ wr) : pc.Entitled rd' wr' p := by
  cases pc <;> simp only [Pc.Entitled, hrd, hwr] at h ⊢ <;> exact h

omit [DecidableEq P] in
theorem Pc.Entitled.wake {pc : Pc w} (h : pc.Entitled rd wr p) : pc.wake.Entitled rd wr p := by
  cases pc <;> exact h

theorem Pc.Loaded.wake {pc : Pc w} (h : pc.Loaded) : pc.wake.Loaded := by
  cases pc with
  | asleep f => trivial
  | _ => exact h

theorem Pc.Locked.of_wake {pc : Pc w} (h : pc.wake.Locked) : pc.Locked := by
  cases pc with
  | asleep f => exact h
  | stopped f o wchan => exact h
  | _ => exact h

/-- After a wakeup only those still sleep that have the scheduler lock. -/
theorem Pc.Locked.of_wake_sleeping {pc : Pc w} (h : pc.wake.Sleeping) : pc.Locked := by
  cases pc with
  | finish f slsDoSleep doSleep => trivial
  | _ => exact h.elim

/-- Another process, as a step of `p` leaves it. -/
theorem apply_pc_of_ne (hq : q ≠ p) :
    e.wakeup = false ∧ (s.apply p e).pc q = s.pc q
      ∨ e.wakeup = true ∧ (s.apply p e).pc q = (s.pc q).wake := by
  have hpc : (s.apply p e).pc q = if e.wakeup then (s.pc q).wake else s.pc q := if_neg hq
  rw [hpc]
  cases hk : e.wakeup with
  | true => exact .inr ⟨rfl, if_pos rfl⟩
  | false => exact .inl ⟨rfl, if_neg Bool.false_ne_true⟩

theorem apply_pc_self : (s.apply p e).pc p = e.pc := if_pos rfl

namespace Sound

variable (hi : Inv addr s) (h : Sound addr s p e)
include hi h

theorem entitled_all (q : P) : ((s.apply p e).pc q).Entitled (s.apply p e).rd (s.apply p e).wr q := by
  by_cases hq : q = p
  · subst hq
    rw [apply_pc_self]
    exact h.entitled
  · have hold := (hi.entitled q).congr (e.hold.mem_rd hq) (e.hold.mem_wr hq)
    obtain ⟨-, hpc⟩ | ⟨-, hpc⟩ := apply_pc_of_ne (s := s) (e := e) hq
    · rw [hpc]
      exact hold
    · rw [hpc]
      exact hold.wake

theorem loaded_all (q : P) : ((s.apply p e).pc q).Loaded := by
  by_cases hq : q = p
  · subst hq
    rw [apply_pc_self]
    exact h.loaded
  · obtain ⟨-, hpc⟩ | ⟨-, hpc⟩ := apply_pc_of_ne (s := s) (e := e) hq
    · rw [hpc]
      exact hi.loaded q
    · rw [hpc]
      exact (hi.loaded q).wake

theorem locked_all (q : P) (hl : ((s.apply p e).pc q).Locked) : (s.apply p e).sched = some q := by
  by_cases hq : q = p
  · subst hq
    rw [apply_pc_self] at hl
    exact h.locked hl
  · have hold : s.sched = some q := by
      obtain ⟨-, hpc⟩ | ⟨-, hpc⟩ := apply_pc_of_ne (s := s) (e := e) hq
      · rw [hpc] at hl
        exact hi.locked q hl
      · rw [hpc] at hl
        exact hi.locked q hl.of_wake
    obtain hs | hs | hs := h.sched
    · exact hs.trans hold
    · rw [hs] at hold
      cases hold
    · rw [hs] at hold
      exact absurd (Option.some.inj hold).symm hq

omit hi in
/-- A sleeper that was noted before still is. -/
theorem noted_of_noted (hk : e.wakeup = false) (hn : Noted s) : Noted (s.apply p e) := by
  obtain hn | ⟨r, hr⟩ := hn
  · obtain hn | hn := h.noted hn
    · exact .inl hn
    · exact .inr ⟨p, apply_pc_self.trans hn⟩
  · have hrp : r ≠ p := by
      rintro rfl
      rw [h.wakes hr] at hk
      cases hk
    obtain ⟨-, hpc⟩ | ⟨hk', -⟩ := apply_pc_of_ne (s := s) (e := e) hrp
    · exact .inr ⟨r, hpc.trans hr⟩
    · rw [hk'] at hk
      cases hk

theorem noted_all (q : P) (hl : ((s.apply p e).pc q).Sleeping) : Noted (s.apply p e) := by
  by_cases hq : q = p
  · subst hq
    rw [apply_pc_self] at hl
    obtain hn | ⟨hp, hk⟩ := h.sleeping hl
    · exact .inl hn
    · exact h.noted_of_noted hk (hi.noted q hp)
  · obtain ⟨hk, hpc⟩ | ⟨hk, hpc⟩ := apply_pc_of_ne (s := s) (e := e) hq
    · rw [hpc] at hl
      exact h.noted_of_noted hk (hi.noted q hl)
    · rw [hpc] at hl
      have hlock := hi.locked q (Pc.Locked.of_wake_sleeping hl)
      rw [h.wakeup hk] at hlock
      cases hlock

theorem inv : Inv addr (s.apply p e) where
  layout := h.layout
  entitled := h.entitled_all hi
  loaded := h.loaded_all hi
  locked := h.locked_all hi
  noted := h.noted_all hi

end Sound

/-! ### Every step is sound -/

omit [DecidableEq P] in
theorem Inv.entitled_at (hi : Inv addr s) {pc : Pc w} (hpc : s.pc p = pc) : pc.Entitled s.rd s.wr p :=
  hpc ▸ hi.entitled p

omit [DecidableEq P] in
theorem Inv.loaded_at (hi : Inv addr s) {pc : Pc w} (hpc : s.pc p = pc) : pc.Loaded :=
  hpc ▸ hi.loaded p

/-- A step that only moves the process, to a point where it does not sleep. -/
theorem sound_goto (hi : Inv addr s) {pc : Pc w} (hent : pc.Entitled s.rd s.wr p) (hload : pc.Loaded)
    (hlock : pc.Locked → (s.pc p).Locked) (hsleep : ¬pc.Sleeping) (hwake : s.pc p ≠ .exitWake) :
    Sound addr s p (s.goto pc) where
  layout := hi.layout
  entitled := hent
  loaded := hload
  locked hl := hi.locked p (hlock hl)
  sched := .inl rfl
  sleeping hs := absurd hs hsleep
  noted hn := .inl hn
  wakes hp := absurd hp hwake
  wakeup hk := by cases hk

/-- A step that takes the scheduler lock or gives it up. -/
theorem sound_sched (hi : Inv addr s) {pc : Pc w} {sched : Option P}
    (hent : pc.Entitled s.rd s.wr p) (hload : pc.Loaded)
    (hlock : pc.Locked → sched = some p) (hsched : s.sched = none ∨ s.sched = some p)
    (hsleep : pc.Sleeping → (s.pc p).Sleeping) (hwake : s.pc p ≠ .exitWake) :
    Sound addr s p { s.goto pc with sched := sched } where
  layout := hi.layout
  entitled := hent
  loaded := hload
  locked hl := hlock hl
  sched := .inr hsched
  sleeping hs := .inr ⟨hsleep hs, rfl⟩
  noted hn := .inl hn
  wakes hp := absurd hp hwake
  wakeup hk := by cases hk

/-- A successful `rw_cas` of a process that is not on its way to sleep. -/
theorem sound_cas {pc : Pc w} {owner : BitVec w} {hold : Hold}
    (hlayout : ∃ f, Layout addr owner (hold.rd p s.rd) (hold.wr p s.wr) f)
    (hpc : pc = .idle ∨ pc = .downgradeWake ∨ pc = .exitWake) (hwake : s.pc p ≠ .exitWake)
    (hnoted : s.owner &&& rwlockWait w ≠ 0#w → owner &&& rwlockWait w ≠ 0#w ∨ pc = .exitWake) :
    Sound addr s p { s.goto pc with owner := owner, hold := hold } where
  layout := hlayout
  entitled := by
    obtain rfl | rfl | rfl := hpc <;> trivial
  loaded := by
    obtain rfl | rfl | rfl := hpc <;> trivial
  locked hl := by
    obtain rfl | rfl | rfl := hpc <;> exact hl.elim
  sched := .inl rfl
  sleeping hs := by
    obtain rfl | rfl | rfl := hpc <;> exact hs.elim
  noted := hnoted
  wakes hp := absurd hp hwake
  wakeup hk := by cases hk

/-- `wakeup` -/
theorem sound_wakeup (hi : Inv addr s) (hsched : s.sched = none) :
    Sound addr s p { s.goto .idle with wakeup := true } where
  layout := hi.layout
  entitled := trivial
  loaded := trivial
  locked hl := hl.elim
  sched := .inl rfl
  sleeping hs := hs.elim
  noted hn := .inl hn
  wakes _ := rfl
  wakeup _ := hsched

omit [DecidableEq P] in
theorem start_entitled {c : Call} (h : ByHolder s p c) : (c.start : Pc w).Entitled s.rd s.wr p := by
  cases c <;> exact h

/-- The last `rw_cas` of `rw_enter`. -/
theorem sound_acquire (hw : 4 ≤ w) (hi : Inv addr s) (hfit : Fits s) {f : Flags}
    (hpc : s.pc p = .acquire f s.owner) {pc : Pc w} (hend : pc = .idle ∨ pc = .downgradeWake) :
    Sound addr s p { s.goto pc with owner := s.owner + inc (addr p) f.op, hold := f.op.hold } := by
  obtain ⟨n, hlay⟩ := hi.layout
  have hent := hi.entitled_at hpc
  have hload := hi.loaded_at hpc
  have hwake : s.pc p ≠ .exitWake := by
    rw [hpc]
    nofun
  have hpc' : pc = .idle ∨ pc = .downgradeWake ∨ pc = .exitWake := hend.imp_right .inl
  simp only [Pc.Loaded] at hload
  cases hop : f.op with
  | write =>
    rw [hop] at hload
    have h0 : s.owner = 0#w := by simpa [rwOps] using hload
    have hinc : s.owner + inc (addr p) .write = rwProc (addr p) ||| rwlockWrlock w := by
      rw [h0, rwProc_eq, rwlockWrlock, tagged_or (by decide) (by decide), inc, rwProc_eq, tagged_eq_add 3 _ (0 ||| 4)]
      simp only [rwOps, rwlockWrlock]
      grind
    refine sound_cas ⟨0, ?_⟩ hpc' hwake ?_
    · rw [hinc]
      exact hlay.takeWrite hw hfit h0
    · intro hn
      rw [h0] at hn
      exact absurd BitVec.zero_and hn
  | read =>
    rw [hop] at hload
    have hinc : s.owner + inc (addr p) .read = s.owner + rwlockReadIncr w := by
      simp [inc, rwOps]
    have hnew := hlay.takeRead (p := p) hw hload
    refine sound_cas ⟨n, ?_⟩ hpc' hwake ?_
    · rw [hinc]
      exact hnew
    · intro hn
      rw [hinc]
      exact .inl fun hz => hn ((hlay.wait hw).mpr ((hnew.wait hw).mp hz))
  | downgrade =>
    have hnew := hlay.downgrade (hent hop)
    refine sound_cas ⟨n, hnew⟩ hpc' hwake ?_
    intro hn
    exact .inl fun hz => hn ((hlay.wait hw).mpr ((hnew.wait hw).mp hz))

/-- The `rw_cas` of `rw_exit`. -/
theorem sound_exitCas (hi : Inv addr s) {wrlock : Bool}
    (hpc : s.pc p = .exitCas wrlock s.owner) :
    Sound addr s p { s.goto (if s.owner &&& rwlockWait w ≠ 0#w then .exitWake else .idle) with
      owner := if wrlock then 0#w
        else (s.owner - rwlockReadIncr w) &&& ~~~(rwlockWait w ||| rwlockWrwant w)
      hold := if wrlock then .dropWrite else .dropRead } := by
  obtain ⟨n, hlay⟩ := hi.layout
  have hent := hi.entitled_at hpc
  have hwake : s.pc p ≠ .exitWake := by
    rw [hpc]
    nofun
  refine sound_cas ⟨0, ?_⟩ ?_ hwake ?_
  · cases wrlock with
    | true => exact hlay.dropWrite hent
    | false => exact hlay.dropReadWaiters hent
  · split
    · exact .inr (.inr rfl)
    · exact .inl rfl
  · intro hn
    exact .inr (if_pos hn)

/-- The steps of `rw_enter_read` and `rw_enter_write`. -/
theorem sound_enterFast (hw : 4 ≤ w) (hi : Inv addr s) (hfit : Fits s) {pc : Pc w} (hpc : s.pc p = pc)
    (hfast : pc = .enterRead ∨ (∃ o, pc = .enterReadCas o) ∨ pc = .enterWrite)
    (h : next addr s p pc .run = some e) : Sound addr s p e := by
  obtain ⟨n, hlay⟩ := hi.layout
  obtain rfl | ⟨o, rfl⟩ | rfl := hfast
  · have hwake : s.pc p ≠ .exitWake := hpc ▸ nofun
    simp only [next] at h
    split at h
    · obtain rfl := Option.some.inj h
      exact sound_goto hi nofun trivial nofun id hwake
    · rename_i hc
      obtain rfl := Option.some.inj h
      exact sound_goto hi trivial (not_not.mp hc) nofun id hwake
  · have hwake : s.pc p ≠ .exitWake := hpc ▸ nofun
    have hload := hi.loaded_at hpc
    simp only [next] at h
    split at h
    · rename_i ho
      subst ho
      obtain rfl := Option.some.inj h
      have hnew := hlay.takeRead (p := p) hw hload
      refine sound_cas ⟨n, hnew⟩ (.inl rfl) hwake fun hn => .inl fun hz => ?_
      exact hn ((hlay.wait hw).mpr ((hnew.wait hw).mp hz))
    · obtain rfl := Option.some.inj h
      exact sound_goto hi nofun trivial nofun id hwake
  · have hwake : s.pc p ≠ .exitWake := hpc ▸ nofun
    simp only [next] at h
    split at h
    · rename_i ho
      obtain rfl := Option.some.inj h
      refine sound_cas ⟨0, hlay.takeWrite hw hfit ho⟩ (.inl rfl) hwake fun hn => ?_
      rw [ho] at hn
      exact absurd BitVec.zero_and hn
    · obtain rfl := Option.some.inj h
      exact sound_goto hi nofun trivial nofun id hwake

/-- The `rw_cas` before a sleep. -/
theorem sound_waitCas (hw : 4 ≤ w) (hi : Inv addr s) {f : Flags} {slsDoSleep : Bool}
    (hpc : s.pc p = .waitCas f s.owner slsDoSleep) :
    Sound addr s p { s.goto (.finish f slsDoSleep true) with
      owner := s.owner ||| (rwOps f.op).waitSet } := by
  obtain ⟨n, hlay⟩ := hi.layout
  obtain ⟨n', hn', hnew⟩ := hlay.setWait hw (hi.loaded_at hpc)
  have hent := hi.entitled_at hpc
  have hset : (s.owner ||| (rwOps f.op).waitSet) &&& rwlockWait w ≠ 0#w :=
    fun hz => hn' ((hnew.wait hw).mp hz)
  exact
    { layout := ⟨n', hnew⟩
      entitled := hent
      loaded := trivial
      locked := fun _ => hi.locked p (by rw [hpc]; trivial)
      sched := .inl rfl
      sleeping := fun _ => .inl hset
      noted := fun _ => .inl hset
      wakes := by
        rw [hpc]
        nofun
      wakeup := nofun }

/-- The points of `rw_enter`. -/
def Pc.entering : Pc w → Bool
  | .enter _ | .setup _ _ | .setupSignal _ _ | .stopped _ _ _ | .waitCas _ _ _ | .finish _ _ _
  | .asleep _ | .woken _ | .acquire _ _ => true
  | _ => false

theorem sound_enter (hw : 4 ≤ w) (hi : Inv addr s) (hfit : Fits s) {m : Move} {pc : Pc w}
    (hpc : s.pc p = pc) (henter : pc.entering = true) (h : next addr s p pc m = some e) :
    Sound addr s p e := by
  have hent := hi.entitled_at hpc
  have hload := hi.loaded_at hpc
  have hlocked := hi.locked p
  have hwake : s.pc p ≠ .exitWake := by
    rw [hpc]
    rintro rfl
    cases henter
  cases pc with
  | enter f' =>
    cases m with
    | run =>
      simp only [next] at h
      split at h
      · rename_i hc
        split at h
        · obtain rfl := Option.some.inj h
          exact sound_goto hi trivial trivial nofun id hwake
        · obtain rfl := Option.some.inj h
          exact sound_goto hi hent hc nofun id hwake
      · rename_i hc
        obtain rfl := Option.some.inj h
        exact sound_goto hi hent (not_not.mp hc) nofun id hwake
    | _ => cases h
  | setup f' o =>
    cases m with
    | run =>
      simp only [next] at h
      split at h
      · rename_i hs
        obtain rfl := Option.some.inj h
        refine sound_sched hi ?_ ?_ (fun _ => rfl) (.inl hs) ?_ hwake
        · split <;> exact hent
        · split <;> exact hload
        · split <;> exact fun hs => hs.elim
      · cases h
    | _ => cases h
  | setupSignal f' o =>
    have hlock : s.sched = some p := hlocked (by rw [hpc]; trivial)
    cases m with
    | run =>
      obtain rfl := Option.some.inj h
      exact sound_goto hi hent hload (fun _ => by rw [hpc]; trivial) id hwake
    | signal =>
      obtain rfl := Option.some.inj h
      exact sound_goto hi hent hload (fun _ => by rw [hpc]; trivial) id hwake
    | stop =>
      obtain rfl := Option.some.inj h
      exact sound_sched hi hent hload nofun (.inr hlock) nofun hwake
    | call c => cases h
  | stopped f' o wchan =>
    cases m with
    | run =>
      simp only [next] at h
      split at h
      · rename_i hs
        obtain rfl := Option.some.inj h
        refine sound_sched hi ?_ ?_ (fun _ => rfl) (.inl hs) ?_ hwake
        · split <;> exact hent
        · split <;> exact hload
        · split <;> exact fun hs => hs.elim
      · cases h
    | _ => cases h
  | waitCas f' o slsDoSleep =>
    cases m with
    | run =>
      simp only [next] at h
      split at h
      · rename_i ho
        subst ho
        obtain rfl := Option.some.inj h
        exact sound_waitCas hw hi hpc
      · obtain rfl := Option.some.inj h
        exact sound_goto hi hent trivial (fun _ => by rw [hpc]; trivial) (fun hs => nomatch hs.2) hwake
    | _ => cases h
  | finish f' slsDoSleep doSleep =>
    have hlock : s.sched = some p := hlocked (by rw [hpc]; trivial)
    cases m with
    | run =>
      obtain rfl := Option.some.inj h
      refine sound_sched hi ?_ ?_ ?_ (.inr hlock) ?_ hwake
      · split <;> exact hent
      · split <;> trivial
      · split <;> exact fun hl => hl.elim
      · split
        · rename_i hs
          intro _
          rw [hpc]
          simpa [Pc.Sleeping] using hs
        · exact fun hs => hs.elim
    | _ => cases h
  | asleep f' =>
    cases m with
    | signal =>
      simp only [next] at h
      split at h
      · obtain rfl := Option.some.inj h
        exact sound_goto hi hent trivial nofun id hwake
      · cases h
    | _ => cases h
  | woken f' =>
    cases m with
    | signal =>
      simp only [next] at h
      split at h
      · obtain rfl := Option.some.inj h
        exact sound_goto hi trivial trivial nofun id hwake
      · cases h
    | run =>
      obtain rfl := Option.some.inj h
      refine sound_goto hi ?_ ?_ ?_ ?_ hwake
      · split
        · trivial
        · exact hent
      · split <;> trivial
      · split <;> exact fun hl => hl.elim
      · split <;> exact id
    | _ => cases h
  | acquire f' o =>
    cases m with
    | run =>
      simp only [next] at h
      split at h
      · rename_i ho
        subst ho
        obtain rfl := Option.some.inj h
        refine sound_acquire hw hi hfit hpc ?_
        split
        · exact .inr rfl
        · exact .inl rfl
      · obtain rfl := Option.some.inj h
        exact sound_goto hi hent trivial nofun id hwake
    | _ => cases h
  | _ => cases henter

/-- The points of the functions that release. -/
def Pc.exiting : Pc w → Bool
  | .exitRead | .exitReadCas _ | .exitWrite | .exitWriteCas _ | .exit | .exitLoop _ | .exitCas _ _ => true
  | _ => false

theorem sound_exit (hw : 4 ≤ w) (hi : Inv addr s) {m : Move} {pc : Pc w}
    (hpc : s.pc p = pc) (hexit : pc.exiting = true) (h : next addr s p pc m = some e) :
    Sound addr s p e := by
  obtain ⟨n, hlay⟩ := hi.layout
  have hent := hi.entitled_at hpc
  have hload := hi.loaded_at hpc
  have hwake : s.pc p ≠ .exitWake := by
    rw [hpc]
    rintro rfl
    cases hexit
  cases pc with
  | exitRead =>
    cases m with
    | run =>
      simp only [next] at h
      split at h
      · obtain rfl := Option.some.inj h
        exact sound_goto hi (.inl hent) trivial nofun id hwake
      · rename_i hc
        obtain rfl := Option.some.inj h
        exact sound_goto hi hent (not_not.mp hc) nofun id hwake
    | _ => cases h
  | exitReadCas o =>
    cases m with
    | run =>
      simp only [next] at h
      split at h
      · rename_i ho
        subst ho
        obtain rfl := Option.some.inj h
        exact sound_cas ⟨0, hlay.dropRead hw hent hload⟩ (.inl rfl) hwake fun hn => absurd hload hn
      · obtain rfl := Option.some.inj h
        exact sound_goto hi (.inl hent) trivial nofun id hwake
    | _ => cases h
  | exitWrite =>
    cases m with
    | run =>
      simp only [next] at h
      split at h
      · obtain rfl := Option.some.inj h
        exact sound_goto hi (.inr hent) trivial nofun id hwake
      · rename_i hc
        obtain rfl := Option.some.inj h
        exact sound_goto hi hent (not_not.mp hc) nofun id hwake
    | _ => cases h
  | exitWriteCas o =>
    cases m with
    | run =>
      simp only [next] at h
      split at h
      · rename_i ho
        subst ho
        obtain rfl := Option.some.inj h
        exact sound_cas ⟨0, hlay.dropWrite hent⟩ (.inl rfl) hwake fun hn => absurd hload hn
      · obtain rfl := Option.some.inj h
        exact sound_goto hi (.inr hent) trivial nofun id hwake
    | _ => cases h
  | exit =>
    cases m with
    | run =>
      obtain rfl := Option.some.inj h
      refine sound_goto hi ?_ trivial nofun id hwake
      -- the flag says which way the process holds the lock
      simp only [Pc.Entitled, decide_eq_true_eq]
      split
      · rename_i hc
        obtain hrd | hwr := hent
        · exact absurd ((hlay.wrlock hw).mpr (hlay.of_mem_rd hrd).2.1) hc
        · exact hwr
      · rename_i hc
        have hnone := (hlay.wrlock hw).mp (not_not.mp hc)
        obtain hrd | hwr := hent
        · exact hrd
        · exact absurd hwr (hnone ▸ Multiset.notMem_zero p)
    | _ => cases h
  | exitLoop wrlock =>
    cases m with
    | run =>
      obtain rfl := Option.some.inj h
      exact sound_goto hi hent trivial nofun id hwake
    | _ => cases h
  | exitCas wrlock o =>
    cases m with
    | run =>
      simp only [next] at h
      split at h
      · rename_i ho
        subst ho
        obtain rfl := Option.some.inj h
        exact sound_exitCas hi hpc
      · obtain rfl := Option.some.inj h
        exact sound_goto hi hent trivial nofun id hwake
    | _ => cases h
  | _ => cases hexit

theorem next_sound (hw : 4 ≤ w) (hi : Inv addr s) (hfit : Fits s) {m : Move}
    (hcall : ∀ c, m = .call c → ByHolder s p c) (h : next addr s p (s.pc p) m = some e) :
    Sound addr s p e := by
  obtain ⟨pc, hpc⟩ : ∃ pc, s.pc p = pc := ⟨_, rfl⟩
  rw [hpc] at h
  have hrun : pc = .enterRead ∨ (∃ o, pc = .enterReadCas o) ∨ pc = .enterWrite → m = .run := by
    rintro (rfl | ⟨o, rfl⟩ | rfl) <;> cases m <;> first | rfl | cases h
  cases pc with
  | idle =>
    cases m with
    | call c =>
      obtain rfl := Option.some.inj h
      refine sound_goto hi (start_entitled (hcall c rfl)) ?_ ?_ ?_ (hpc ▸ nofun)
      · cases c <;> trivial
      · cases c <;> exact fun hl => hl.elim
      · cases c <;> exact id
    | _ => cases h
  | enterRead =>
    obtain rfl := hrun (.inl rfl)
    exact sound_enterFast hw hi hfit hpc (.inl rfl) h
  | enterReadCas o =>
    obtain rfl := hrun (.inr (.inl ⟨o, rfl⟩))
    exact sound_enterFast hw hi hfit hpc (.inr (.inl ⟨o, rfl⟩)) h
  | enterWrite =>
    obtain rfl := hrun (.inr (.inr rfl))
    exact sound_enterFast hw hi hfit hpc (.inr (.inr rfl)) h
  | exitWake | downgradeWake =>
    cases m with
    | run =>
      simp only [next] at h
      split at h
      · rename_i hs
        obtain rfl := Option.some.inj h
        exact sound_wakeup hi hs
      · cases h
    | _ => cases h
  | enter | setup | setupSignal | stopped | waitCas | finish | asleep | woken | acquire =>
    exact sound_enter hw hi hfit hpc rfl h
  | exitRead | exitReadCas | exitWrite | exitWriteCas | exit | exitLoop | exitCas =>
    exact sound_exit hw hi hpc rfl h

/-! ## Runs -/

omit [DecidableEq P] in
theorem inv_rwInit : Inv addr (rwInit : Sys P w) where
  layout := ⟨0, .readers (.inl rfl) (fun _ => rfl) rfl rfl⟩
  entitled _ := trivial
  loaded _ := trivial
  locked _ h := h.elim
  noted _ h := h.elim

/-- Releases and downgrades are made by holders, and the readers can be counted. -/
def Counted (addr : P → BitVec w) (s : Sys P w) (a : P × Move) : Prop :=
  Allowed s a ∧ ∀ s', step addr s a = some s' → Fits s'

theorem step_inv (hw : 4 ≤ w) {a : P × Move} (hok : Counted addr s a) (hs : step addr s a = some s')
    (h : Inv addr s ∧ Fits s) : Inv addr s' ∧ Fits s' := by
  refine ⟨?_, hok.2 s' hs⟩
  obtain ⟨e, he, rfl⟩ := Option.map_eq_some_iff.mp hs
  exact (next_sound hw h.1 h.2 hok.1 he).inv h.1

/-- In every interleaving in which the number of read holds fits in the word: a writer is
alone; without one the word counts the readers; a lock that nobody holds is 0; and a sleeper
finds `RWLOCK_WAIT` set or somebody who took it out and has yet to call `wakeup`. -/
theorem rwlock_safe (hw : 32 ≤ w) (h : Runs (step addr) (Counted addr) rwInit s) :
    (∀ p ∈ s.wr, s.wr = {p} ∧ s.rd = 0)
      ∧ (s.wr = 0 → (s.owner >>> 3).toNat = s.rd.card)
      ∧ (s.owner ≠ 0#w → s.rd ≠ 0 ∨ s.wr ≠ 0)
      ∧ ∀ p f, s.pc p = .asleep f →
        s.owner &&& rwlockWait w ≠ 0#w ∨ ∃ q, s.pc q = .exitWake := by
  have hw4 : 4 ≤ w := by omega
  have hend := Runs.invariant (fun _ _ _ hok hs hi => step_inv hw4 hok hs hi) h
  obtain ⟨hi, hfit⟩ := hend ⟨inv_rwInit, Nat.two_pow_pos _⟩
  obtain ⟨n, hlay⟩ := hi.layout
  refine ⟨fun p hp => ?_, fun hwr => ?_, fun ho => ?_, fun p f hp => ?_⟩
  · obtain ⟨-, hrd, hwr, -⟩ := hlay.of_mem_wr hp
    exact ⟨hwr, hrd⟩
  · cases hlay with
    | readers hf hfree _ ho =>
      have hlt := hf.lt
      rw [BitVec.toNat_ushiftRight, ho, toNat_tagged (fits (by omega) hfit hlt), Nat.shiftRight_eq_div_pow]
      omega
    | writer q hf hrd hq => exact absurd (hq.symm.trans hwr) (Multiset.singleton_ne_zero q)
  · by_contra hc
    rw [not_or, not_not, not_not] at hc
    exact ho ((hlay.eq_zero hw4 hfit).mpr hc)
  · exact hi.noted p (by rw [hp]; trivial)

/-! ### Two processes -/

omit [DecidableEq P] in
theorem allowed_run : Allowed s (p, .run) := fun _ h => Move.noConfusion h

/-- Where the two have their `struct proc`. -/
def procAddr (p : Bool) : BitVec 32 := if p then 0x1000#32 else 0x2000#32

/-- One of them writes. -/
def writing : Sys Bool 32 :=
  (rwInit.apply false (rwInit.goto .enterWrite)).apply false
    { owner := rwProc (procAddr false) ||| rwlockWrlock 32, sched := none, pc := .idle, hold := .takeWrite }

theorem rwlock_safe_writing : false ∈ writing.wr ∧ writing.wr = {false} ∧ writing.rd = 0 := by
  have hmem : false ∈ writing.wr := Multiset.mem_cons_self false 0
  have hfit : ∀ s : Sys Bool 32, s.rd = 0 → Fits s := by
    intro s hs
    rw [Fits, hs, Multiset.card_zero]
    decide
  have h1 : Counted procAddr rwInit (false, .call .rwEnterWrite) := by
    refine ⟨fun c hc => ?_, fun s' hs => hfit s' ?_⟩
    · obtain rfl := Move.call.inj hc
      trivial
    · obtain rfl := Option.some.inj hs
      rfl
  have h2 : Counted procAddr (rwInit.apply false (rwInit.goto .enterWrite)) (false, .run) := by
    refine ⟨allowed_run, fun s' hs => hfit s' ?_⟩
    obtain rfl := Option.some.inj hs
    rfl
  have hrun : Runs (step procAddr) (Counted procAddr) rwInit writing :=
    (Relation.ReflTransGen.single ⟨_, h1, rfl⟩).tail ⟨_, h2, rfl⟩
  exact ⟨hmem, (rwlock_safe (by decide) hrun).1 false hmem⟩

/-- The other one has the lock `n` times for reading, and is at `pc`. -/
def nested (n : Nat) (pc : Pc 32) : Sys Bool 32 :=
  { owner := tagged 3 n 0, sched := none, pc := fun p => if p then pc else .idle
    rd := Multiset.replicate n true, wr := 0 }

theorem nested_goto (n : Nat) (pc pc' : Pc 32) :
    (nested n pc).apply true ((nested n pc).goto pc') = nested n pc' := by
  refine Sys.ext rfl rfl (funext fun q => ?_) rfl rfl
  cases q <;> rfl

theorem nested_take (n : Nat) (pc : Pc 32) :
    (nested n pc).apply true { (nested n pc).goto .idle with
      owner := tagged 3 n 0 + rwlockReadIncr 32, hold := .takeRead } = nested (n + 1) .idle := by
  refine Sys.ext (tagged_add 3 n 0) rfl (funext fun q => ?_) (Multiset.replicate_succ true n).symm rfl
  cases q <;> rfl

theorem nested_run (n : Nat) : Runs (step procAddr) Allowed (nested 0 .idle) (nested n .idle) := by
  induction n with
  | zero => exact .refl
  | succ n ih =>
    have hunlocked : (tagged 3 n 0 : BitVec 32) &&& rwlockWrlock 32 = 0#32 := by
      rw [rwlockWrlock, tagged_and (by decide) (by decide)]
      rfl
    have hcall : step procAddr (nested n .idle) (true, .call .rwEnterRead) = some (nested n .enterRead) :=
      congrArg some (nested_goto n _ _)
    have hload : step procAddr (nested n .enterRead) (true, .run)
        = some (nested n (.enterReadCas (tagged 3 n 0))) := by
      rw [← nested_goto n .enterRead (.enterReadCas (tagged 3 n 0))]
      exact congrArg (Option.map _) (if_neg (not_not.mpr hunlocked))
    have hcas : step procAddr (nested n (.enterReadCas (tagged 3 n 0))) (true, .run)
        = some (nested (n + 1) .idle) := by
      rw [← nested_take n (.enterReadCas (tagged 3 n 0))]
      exact congrArg (Option.map _) (if_pos rfl)
    have hallowed : Allowed (nested n .idle) (true, .call .rwEnterRead) := by
      intro c hc
      obtain rfl := Move.call.inj hc
      trivial
    exact ((ih.tail ⟨_, hallowed, hcall⟩).tail ⟨_, allowed_run, hload⟩).tail ⟨_, allowed_run, hcas⟩

/-- A process that takes the lock `2 ^ 29` times for reading lets a writer in. -/
theorem nested_readers_wrap : ∃ s : Sys Bool 32, Runs (step procAddr) Allowed rwInit s
    ∧ true ∈ s.rd ∧ false ∈ s.wr := by
  obtain ⟨s, hs⟩ : ∃ s, s = nested (2 ^ 29) .idle := ⟨_, rfl⟩
  have hrun : Runs (step procAddr) Allowed rwInit s := by
    have hinit : (rwInit : Sys Bool 32) = nested 0 .idle := by
      refine Sys.ext rfl rfl (funext fun q => ?_) rfl rfl
      cases q <;> rfl
    rw [hinit, hs]
    exact nested_run _
  have hzero : s.owner = 0#32 := by
    rw [hs]
    rfl
  have hpc : s.pc false = .idle := by rw [hs]; rfl
  have hmem : true ∈ s.rd := by
    rw [hs]
    exact Multiset.mem_replicate.mpr ⟨by decide, rfl⟩
  have hcall : step procAddr s (false, .call .rwEnterWrite) = some (s.apply false (s.goto .enterWrite)) := by
    rw [step, hpc]
    rfl
  have hcas : step procAddr (s.apply false (s.goto .enterWrite)) (false, .run)
      = some ((s.apply false (s.goto .enterWrite)).apply false
          { (s.apply false (s.goto .enterWrite)).goto .idle with
            owner := rwProc (procAddr false) ||| rwlockWrlock 32, hold := .takeWrite }) :=
    congrArg (Option.map _) (if_pos hzero)
  have hallowed : Allowed s (false, .call .rwEnterWrite) := by
    intro c hc
    obtain rfl := Move.call.inj hc
    trivial
  refine ⟨_, (hrun.tail ⟨_, hallowed, hcall⟩).tail ⟨_, allowed_run, hcas⟩, hmem, ?_⟩
  exact Multiset.mem_cons_self false _

end Obsd.Rwlock
