import Obsd.Timeout

/-!
# Timeouts, over any run

A timeout in a bucket is moved back to the worklist at a tick that is not
behind the time it is due: bucket `j` of level `w` is moved at the ticks
`v` that are multiples of `256^w` with `v / 256^w` congruent to `j`, and
`Placed` says that such a tick lies between now and the time the timeout is
due. A timeout that is made later keeps its place for the same reason.
-/

namespace Obsd.Timeout

open Circq

/-! ## The counter -/

/-- As long as they are less than half the counter apart, the difference of two times is
what it should be. -/
theorem toInt_sub_ofNat {d now : Nat} (hlo : now < d + 2 ^ 31) (hhi : d < now + 2 ^ 31) :
    (BitVec.ofNat 32 d - BitVec.ofNat 32 now).toInt = (d : Int) - now := by
  rw [BitVec.toInt_sub, BitVec.toInt_ofNat', BitVec.toInt_ofNat', Int.bmod_sub_bmod, Int.sub_bmod_bmod]
  refine Int.bmod_eq_of_le ?_ ?_ <;> omega

theorem maskwheel_ofNat {w : Nat} (hw : w < 4) (v : Nat) :
    maskwheel w (BitVec.ofNat 32 v) = v / 256 ^ w % 256 := by
  have hshift : (BitVec.ofNat 32 v).sshiftRight (w * 8) &&& 255#32
      = (BitVec.ofNat 32 v) >>> (w * 8) &&& 255#32 := by
    refine BitVec.eq_of_getLsbD_eq fun i hi => ?_
    have h255 : (255#32).getLsbD i = (decide (i < 32) && decide (i < 8)) := by
      rw [show 255#32 = BitVec.ofNat 32 (2 ^ 8 - 1) from rfl, BitVec.getLsbD_ofNat, Nat.testBit_two_pow_sub_one]
    rw [BitVec.getLsbD_and, BitVec.getLsbD_and, h255]
    by_cases h8 : i < 8
    · have h32 : w * 8 + i < 32 := by omega
      have hi' : ¬32 ≤ i := by omega
      rw [BitVec.getLsbD_sshiftRight, BitVec.getLsbD_ushiftRight, if_pos h32, decide_eq_false hi',
        Bool.not_false, Bool.true_and]
    · simp [h8]
  unfold maskwheel wheelbits
  rw [hshift, BitVec.toNat_and, BitVec.toNat_ushiftRight, BitVec.toNat_ofNat, BitVec.toNat_ofNat,
    Nat.shiftRight_eq_div_pow, show 255 % 2 ^ 32 = 2 ^ 8 - 1 by decide, Nat.and_two_pow_sub_one_eq_mod]
  have h4 : w = 0 ∨ w = 1 ∨ w = 2 ∨ w = 3 := by omega
  rcases h4 with rfl | rfl | rfl | rfl <;> omega

/-- The bucket of level `w` that is moved at tick `v`. -/
def visited (w v : Nat) : Head := .wheel (v / 256 ^ w % 256 + w * 256)

theorem bucketOf_ofNat {w : Nat} (hw : w < 4) (v : Nat) : bucketOf w (BitVec.ofNat 32 v) = visited w v := by
  unfold bucketOf
  rw [maskwheel_ofNat hw]
  rfl

/-- The bucket for a time is moved by then. -/
theorem bucket_visited {d now : Nat} (hlo : now < d) (hhi : d < now + 2 ^ 31) :
    ∃ w < 4, ∃ v, now < v ∧ v ≤ d ∧ 256 ^ w ∣ v
      ∧ bucket (BitVec.ofNat 32 d - BitVec.ofNat 32 now) (BitVec.ofNat 32 d) = visited w v := by
  have hrel := toInt_sub_ofNat (show now < d + 2 ^ 31 by omega) hhi
  -- the last tick that is a multiple of `256^w`
  have hlevel : ∀ w < 4, now + 256 ^ w ≤ d → ∃ v, now < v ∧ v ≤ d ∧ 256 ^ w ∣ v
      ∧ bucketOf w (BitVec.ofNat 32 d) = visited w v := by
    intro w hw hle
    have hpos : 0 < 256 ^ w := Nat.pow_pos (by decide)
    have hdm := Nat.div_add_mod d (256 ^ w)
    refine ⟨256 ^ w * (d / 256 ^ w), by omega, by omega, Nat.dvd_mul_right _ _, ?_⟩
    rw [bucketOf_ofNat hw, visited, visited, Nat.mul_div_cancel_left _ hpos]
  unfold bucket wheelbits
  split_ifs with h2 h1 h3
  · exact ⟨0, by decide, hlevel 0 (by decide) (by omega)⟩
  · exact ⟨1, by decide, hlevel 1 (by decide) (by omega)⟩
  · exact ⟨2, by decide, hlevel 2 (by decide) (by omega)⟩
  · exact ⟨3, by decide, hlevel 3 (by decide) (by omega)⟩

/-! ## A tick -/

/-- The levels that move a bucket at a tick. -/
def levels (ticks : BitVec 32) : List Nat :=
  if maskwheel 0 ticks = 0 then
    if maskwheel 1 ticks = 0 then
      if maskwheel 2 ticks = 0 then [0, 1, 2, 3] else [0, 1, 2]
    else [0, 1]
  else [0]

def moveAll (ticks : BitVec 32) (q : Queues Head Nat) (ws : List Nat) : Queues Head Nat :=
  ws.foldl (fun q w => movebucket w ticks q) q

theorem turn_eq (ticks : BitVec 32) (q : Queues Head Nat) : turn ticks q = moveAll ticks q (levels ticks) := by
  unfold turn levels
  split_ifs <;> rfl

theorem mem_levels {v w : Nat} : w ∈ levels (BitVec.ofNat 32 v) ↔ w < 4 ∧ 256 ^ w ∣ v := by
  unfold levels
  rw [maskwheel_ofNat (by decide), maskwheel_ofNat (by decide), maskwheel_ofNat (by decide)]
  have hw : w = 0 ∨ w = 1 ∨ w = 2 ∨ w = 3 ∨ 4 ≤ w := by omega
  constructor
  · intro hmem
    split_ifs at hmem with h0 h1 h2 <;> simp only [List.mem_cons, List.not_mem_nil, or_false] at hmem
    · rcases hmem with rfl | rfl | rfl | rfl <;> refine ⟨by decide, ?_⟩ <;> omega
    · rcases hmem with rfl | rfl | rfl <;> refine ⟨by decide, ?_⟩ <;> omega
    · rcases hmem with rfl | rfl <;> refine ⟨by decide, ?_⟩ <;> omega
    · subst hmem
      exact ⟨by decide, by omega⟩
  · rintro ⟨hlt, hdvd⟩
    rcases hw with rfl | rfl | rfl | rfl | hge
    · split_ifs <;> simp
    · split_ifs
      all_goals simp
      omega
    · split_ifs
      all_goals simp
      all_goals omega
    · split_ifs
      all_goals simp
      all_goals omega
    · omega

section
variable {ticks : BitVec 32} {i : Nat}

theorem todo_ne (w : Nat) (ticks : BitVec 32) : Head.todo ≠ bucketOf w ticks := nofun

/-- What is in a bucket after the move was there before, and it was not its turn. -/
theorem mem_moveAll_wheel {b : Nat} (ws : List Nat) : ∀ {q : Queues Head Nat},
    i ∈ moveAll ticks q ws (.wheel b) → i ∈ q (.wheel b) ∧ ∀ w ∈ ws, bucketOf w ticks ≠ .wheel b := by
  induction ws with
  | nil => exact fun h => ⟨h, nofun⟩
  | cons w ws ih =>
    intro q h
    obtain ⟨hq, hws⟩ := ih h
    obtain ⟨hne, hq⟩ := (mem_append (todo_ne w ticks)).mp hq
    refine ⟨hq.resolve_right (fun hdst => nomatch hdst.1), fun w' hw' => ?_⟩
    rcases List.mem_cons.mp hw' with rfl | hw'
    · exact hne.symm
    · exact hws w' hw'

theorem mem_moveAll {h : Head} (ws : List Nat) : ∀ {q : Queues Head Nat},
    i ∈ moveAll ticks q ws h → ∃ h', i ∈ q h' := by
  induction ws with
  | nil => exact fun hi => ⟨h, hi⟩
  | cons w ws ih =>
    intro q hi
    obtain ⟨h', hq⟩ := ih hi
    obtain ⟨-, hq | ⟨-, hq⟩⟩ := (mem_append (todo_ne w ticks)).mp hq
    · exact ⟨h', hq⟩
    · exact ⟨_, hq⟩

/-- None is lost on the way. -/
theorem moveAll_mem (ws : List Nat) : ∀ {q : Queues Head Nat} {h : Head},
    i ∈ q h → ∃ h', i ∈ moveAll ticks q ws h' := by
  induction ws with
  | nil => exact fun hi => ⟨_, hi⟩
  | cons w ws ih =>
    intro q h hi
    by_cases hsrc : h = bucketOf w ticks
    · refine ih ((mem_append (todo_ne w ticks)).mpr ⟨todo_ne w ticks, .inr ⟨rfl, ?_⟩⟩)
      rw [← hsrc]
      exact hi
    · exact ih ((mem_append (todo_ne w ticks)).mpr ⟨hsrc, .inl hi⟩)

theorem once_moveAll (ws : List Nat) : ∀ {q : Queues Head Nat}, Once q → Once (moveAll ticks q ws) := by
  induction ws with
  | nil => exact fun h => h
  | cons w ws ih => exact fun h => ih (h.append (todo_ne w ticks))

end

/-! ## The invariant -/

/-- What there is of one timeout. -/
structure View where
  t : Timeout
  on : Head → Prop
  due : Option Nat
  late : Bool
  armed : Nat
  called : Nat
  cancelled : Nat

def State.view (s : State) (i : Nat) : View :=
  ⟨s.kernel.timeouts i, fun h => i ∈ s.kernel.queues h, s.due i, s.late i, s.armed i, s.called i, s.cancelled i⟩

/-- The queues a timeout due at `d` may be on. -/
def Placed (now : Nat) (drained late : Bool) (d : Nat) : Head → Prop
  | .todo => now < d ∨ (d = now ∧ (drained = true → late = true)) ∨ (d + 1 = now ∧ drained = false ∧ late = true)
  | .wheel b => ∃ w < 4, ∃ v, now < v ∧ v ≤ d ∧ 256 ^ w ∣ v ∧ visited w v = .wheel b

structure View.Ok (now : Nat) (drained : Bool) (x : View) : Prop where
  pending : x.t.onqueue = x.due.isSome
  onqueue : x.t.onqueue = true ↔ ∃ h, x.on h
  time : ∀ d, x.due = some d → x.t.toTime = BitVec.ofNat 32 d ∧ d < now + 2 ^ 31
  placed : ∀ d h, x.due = some d → x.on h → Placed now drained x.late d h
  count : x.armed = x.called + x.cancelled + x.t.onqueue.toNat

structure Inv (s : State) : Prop where
  ticks : s.kernel.ticks = BitVec.ofNat 32 s.now
  once : Once s.kernel.queues
  ok : ∀ i, (s.view i).Ok s.now s.drained

theorem inv_boot (t : Nat) : Inv (boot t) where
  ticks := rfl
  once := once_empty
  ok := by
    intro i
    exact ⟨rfl, ⟨nofun, nofun⟩, nofun, nofun, rfl⟩

section
variable {now : Nat} {drained : Bool} {x : View}

theorem View.Ok.exists_due (h : x.Ok now drained) {hd : Head} (hon : x.on hd) : ∃ d, x.due = some d := by
  have hp := h.pending
  rw [h.onqueue.mpr ⟨hd, hon⟩] at hp
  exact Option.isSome_iff_exists.mp hp.symm

theorem View.Ok.placed_lo (h : x.Ok now drained) {d : Nat} (hd : x.due = some d) : now ≤ d + 1 := by
  have hp := h.pending
  rw [hd] at hp
  obtain ⟨hq, hon⟩ := h.onqueue.mp hp
  have hpl := h.placed d hq hd hon
  cases hq with
  | todo =>
    simp only [Placed] at hpl
    omega
  | wheel b =>
    obtain ⟨w, -, v, hlt, hle, -⟩ := hpl
    omega

/-- The time that is left, as the code computes it. -/
theorem View.Ok.left (h : x.Ok now drained) {d : Nat} (hd : x.due = some d) :
    (x.t.toTime - BitVec.ofNat 32 now).toInt = (d : Int) - now := by
  have hlo := h.placed_lo hd
  obtain ⟨htime, hhi⟩ := h.time d hd
  rw [htime]
  exact toInt_sub_ofNat (by omega) hhi

end

/-! ## Steps -/

section
variable {s : State}

/-- A timeout that a step does not touch. -/
theorem view_congr {s' : State} {i : Nat} (ht : s'.kernel.timeouts i = s.kernel.timeouts i)
    (hq : ∀ hd, i ∈ s'.kernel.queues hd ↔ i ∈ s.kernel.queues hd) (hdue : s'.due i = s.due i)
    (hlate : s'.late i = s.late i) (harmed : s'.armed i = s.armed i) (hcalled : s'.called i = s.called i)
    (hcancelled : s'.cancelled i = s.cancelled i) : s'.view i = s.view i := by
  have hon : (fun hd => i ∈ s'.kernel.queues hd) = fun hd => i ∈ s.kernel.queues hd :=
    funext fun hd => propext (hq hd)
  unfold State.view
  rw [ht, hon, hdue, hlate, harmed, hcalled, hcancelled]

/-- The queues with one timeout moved to the worklist, or wherever. -/
theorem mem_moved {q : Queues Head Nat} (hq : Once q) {i new : Nat} {hd hd' : Head} :
    i ∈ insert (remove q new) new hd hd' ↔ (i ≠ new ∧ i ∈ q hd') ∨ (i = new ∧ hd' = hd) := by
  rw [mem_insert, mem_remove hq]

theorem once_moved {q : Queues Head Nat} (hq : Once q) (new : Nat) (hd : Head) :
    Once (insert (remove q new) new hd) :=
  (hq.remove new).insert (fun _ hmem => ((mem_remove hq).mp hmem).1 rfl) hd

/-- Where `timeout_add` leaves the queues: the timeout is on the worklist, or where it was
if it was armed and is not moved earlier. -/
theorem timeoutAdd_queues (h : Inv s) (new : Nat) {n : BitVec 32} (hn : n.toNat < 2 ^ 31) :
    ∃ q, timeoutAdd s.kernel new n
        = { s.kernel.setTimeout new ⟨n + s.kernel.ticks, true, false⟩ with queues := q }
      ∧ Once q ∧ (∀ i ≠ new, ∀ hd, i ∈ q hd ↔ i ∈ s.kernel.queues hd)
      ∧ (∃ hd, new ∈ q hd)
      ∧ ∀ b, new ∈ q (.wheel b) → new ∈ s.kernel.queues (.wheel b)
        ∧ ∃ d, s.due new = some d ∧ d ≤ s.now + n.toNat := by
  have hnew := h.ok new
  have hsum : n + s.kernel.ticks = BitVec.ofNat 32 (s.now + n.toNat) := by
    rw [h.ticks, BitVec.add_comm, BitVec.ofNat_add, BitVec.ofNat_toNat, BitVec.setWidth_eq]
  have hleft : (n + s.kernel.ticks - s.kernel.ticks).toInt = (n.toNat : Int) := by
    rw [hsum, h.ticks, toInt_sub_ofNat (by omega) (by omega)]
    omega
  unfold timeoutAdd
  simp only
  split_ifs with hon hearlier
  · refine ⟨_, ?_, once_moved h.once new .todo, fun i hi hd => ?_, ⟨.todo, (mem_moved h.once).mpr (.inr ⟨rfl, rfl⟩)⟩,
      fun b hb => ?_⟩
    · rw [← hon]
      rfl
    · rw [mem_moved h.once]
      simp [hi]
    · rcases (mem_moved h.once).mp hb with ⟨hne, -⟩ | ⟨-, hhd⟩
      · exact absurd rfl hne
      · cases hhd
  · refine ⟨s.kernel.queues, ?_, h.once, fun i _ hd => Iff.rfl, hnew.onqueue.mp hon, fun b hb => ⟨hb, ?_⟩⟩
    · rw [← hon]
      rfl
    · obtain ⟨d, hd⟩ := hnew.exists_due hb
      have hold : ((s.kernel.timeouts new).toTime - s.kernel.ticks).toInt = (d : Int) - s.now := by
        rw [h.ticks]
        exact hnew.left hd
      have hle : ¬(n + s.kernel.ticks - s.kernel.ticks).toInt
          < ((s.kernel.timeouts new).toTime - s.kernel.ticks).toInt := hearlier
      exact ⟨d, hd, by omega⟩
  · have habs : ∀ hd, new ∉ s.kernel.queues hd := fun hd hmem => hon (hnew.onqueue.mpr ⟨hd, hmem⟩)
    refine ⟨_, rfl, h.once.insert habs .todo, fun i hi hd => ?_, ⟨.todo, mem_insert.mpr (.inr ⟨rfl, rfl⟩)⟩,
      fun b hb => ?_⟩
    · show i ∈ insert s.kernel.queues new .todo hd ↔ _
      rw [mem_insert]
      simp [hi]
    · rcases mem_insert.mp hb with hb | ⟨-, hhd⟩
      · exact absurd hb (habs _)
      · cases hhd

theorem inv_add (h : Inv s) (new : Nat) {n : BitVec 32} {s' : State}
    (hs : step s (.add new n) = some s') : Inv s' := by
  simp only [step] at hs
  by_cases hneg : n.toInt < 0
  · rw [if_pos hneg] at hs
    cases hs
  rw [if_neg hneg] at hs
  have hn : n.toNat < 2 ^ 31 := by
    rw [BitVec.toInt_eq_toNat_cond] at hneg
    have := n.isLt
    split_ifs at hneg <;> omega
  obtain rfl := Option.some.inj hs
  obtain ⟨q, hk, honce, hframe, hon, hwheel⟩ := timeoutAdd_queues h new hn
  rw [hk]
  refine ⟨h.ticks, honce, fun i => ?_⟩
  by_cases hi : i = new
  · subst hi
    have hnew := h.ok i
    constructor
    case pending => simp [State.view, Kernel.setTimeout]
    case onqueue => simpa [State.view, Kernel.setTimeout] using hon
    case time =>
      intro d hd
      have hd' : s.now + n.toNat = d := by simpa [State.view] using hd
      subst hd'
      refine ⟨?_, by show s.now + n.toNat < s.now + 2 ^ 31; omega⟩
      simp [State.view, Kernel.setTimeout, h.ticks, BitVec.ofNat_add, BitVec.add_comm]
    case placed =>
      intro d hd hdue honq
      have hd' : s.now + n.toNat = d := by simpa [State.view] using hdue
      cases hd with
      | todo =>
        show s.now < d ∨ (d = s.now ∧ (s.drained = true → (Function.update s.late i (s.drained && n == 0#32)) i = true)) ∨ _
        rcases Nat.eq_zero_or_pos n.toNat with hz | hpos
        · refine .inr (.inl ⟨by omega, fun hdr => ?_⟩)
          have hn0 : n = 0#32 := BitVec.eq_of_toNat_eq (by rw [hz]; rfl)
          simp [hdr, hn0]
        · exact .inl (by omega)
      | wheel b =>
        obtain ⟨hold, d0, hd0, hle⟩ := hwheel b honq
        obtain ⟨w, hw, v, hlt, hv, hrest⟩ := hnew.placed d0 (.wheel b) hd0 hold
        exact ⟨w, hw, v, hlt, by omega, hrest⟩
    case count =>
      have hc := hnew.count
      simp only [State.view] at hc
      simp only [State.view, Kernel.setTimeout, Function.update_self, hc, Bool.toNat_true]
      omega
  · rw [view_congr (s := s)]
    · exact h.ok i
    · exact Function.update_of_ne hi ..
    · exact hframe i hi
    · exact Function.update_of_ne hi ..
    · exact Function.update_of_ne hi ..
    · exact Function.update_of_ne hi ..
    · rfl
    · exact Function.update_of_ne hi ..

/-- A timeout that is on no queue any more, deleted or called. -/
theorem View.Ok.idle {now : Nat} {drained : Bool} {x : View} {t : Timeout} {late : Bool} {called cancelled : Nat}
    (ht : t.onqueue = false) (hcount : x.armed = called + cancelled) :
    View.Ok now drained ⟨t, fun _ => False, none, late, x.armed, called, cancelled⟩ where
  pending := ht
  onqueue := by simp [ht]
  time := nofun
  placed := nofun
  count := by simp [ht, hcount]

theorem timeoutDel_queues (h : Inv s) (x : Nat) :
    ∃ q, timeoutDel s.kernel x
        = ({ s.kernel.setTimeout x { s.kernel.timeouts x with onqueue := false, triggered := false } with
              queues := q }, (s.kernel.timeouts x).onqueue)
      ∧ Once q ∧ (∀ i ≠ x, ∀ hd, i ∈ q hd ↔ i ∈ s.kernel.queues hd) ∧ ∀ hd, x ∉ q hd := by
  unfold timeoutDel
  simp only
  split_ifs with hon
  · refine ⟨remove s.kernel.queues x, by rw [hon], h.once.remove x, fun i hi hd => ?_, fun hd hmem => ?_⟩
    · rw [mem_remove h.once]
      simp [hi]
    · exact ((mem_remove h.once).mp hmem).1 rfl
  · have hoff : (s.kernel.timeouts x).onqueue = false := Bool.eq_false_iff.mpr hon
    refine ⟨s.kernel.queues, ?_, h.once, fun _ _ _ => Iff.rfl, fun hd hmem => ?_⟩
    · rw [hoff, ← hoff]
      rfl
    · exact hon ((h.ok x).onqueue.mpr ⟨hd, hmem⟩)

theorem inv_del (h : Inv s) (x : Nat) {s' : State} (hs : step s (.del x) = some s') : Inv s' := by
  obtain ⟨q, hk, honce, hframe, hoff⟩ := timeoutDel_queues h x
  simp only [step, hk] at hs
  obtain rfl := Option.some.inj hs
  refine ⟨h.ticks, honce, fun i => ?_⟩
  by_cases hi : i = x
  · subst hi
    have hc := (h.ok i).count
    have hon : (fun hd => i ∈ q hd) = fun _ => False := funext fun hd => eq_false (hoff hd)
    simp only [State.view, Kernel.setTimeout, Function.update_self, hon]
    refine View.Ok.idle (x := s.view i) rfl ?_
    simp only [State.view] at hc ⊢
    omega
  · rw [view_congr (s := s)]
    · exact h.ok i
    · exact Function.update_of_ne hi ..
    · exact hframe i hi
    · exact Function.update_of_ne hi ..
    · rfl
    · rfl
    · rfl
    · exact Function.update_of_ne hi ..

/-- What an iteration of `softclock` finds. -/
theorem softclock_cases (k : Kernel) : (softclock k = none ∧ k.queues .todo = []) ∨
    ∃ x, x ∈ k.queues .todo ∧
      ((((k.timeouts x).toTime - k.ticks).toInt > 0 ∧ softclock k = some ({ k with
          queues := insert (remove k.queues x) x
            (bucket ((k.timeouts x).toTime - k.ticks) (k.timeouts x).toTime) }, none)) ∨
       (¬((k.timeouts x).toTime - k.ticks).toInt > 0 ∧ softclock k = some
          ({ k.setTimeout x { k.timeouts x with onqueue := false, triggered := true } with
              queues := remove k.queues x }, some x))) := by
  unfold softclock
  cases hq : k.queues .todo with
  | nil => exact .inl ⟨rfl, rfl⟩
  | cons x rest =>
    refine .inr ⟨x, List.mem_cons_self, ?_⟩
    by_cases hleft : ((k.timeouts x).toTime - k.ticks).toInt > 0
    · exact .inl ⟨hleft, if_pos hleft⟩
    · exact .inr ⟨hleft, if_neg hleft⟩

theorem inv_softclock (h : Inv s) {s' : State} (hs : step s .softclock = some s') : Inv s' := by
  rcases softclock_cases s.kernel with ⟨hnone, hempty⟩ | ⟨x, hmem, ⟨hleft, hsome⟩ | ⟨hleft, hsome⟩⟩
  · simp only [step, hnone] at hs
    obtain rfl := Option.some.inj hs
    refine ⟨h.ticks, h.once, fun i => { h.ok i with placed := fun d hd hdue hon => ?_ }⟩
    cases hd with
    | todo =>
      have hon' : i ∈ s.kernel.queues .todo := hon
      rw [hempty] at hon'
      cases hon'
    | wheel b => exact (h.ok i).placed d (.wheel b) hdue hon
  · -- not due: to its bucket
    simp only [step, hsome] at hs
    obtain rfl := Option.some.inj hs
    refine ⟨h.ticks, once_moved h.once x _, fun i => ?_⟩
    have hx := h.ok x
    obtain ⟨d, hd⟩ := hx.exists_due hmem
    by_cases hi : i = x
    · subst hi
      refine { hx with onqueue := ?_, placed := fun d' hd' hdue hon => ?_ }
      · refine ⟨fun _ => ⟨_, (mem_moved h.once).mpr (.inr ⟨rfl, rfl⟩)⟩, fun _ => hx.onqueue.mpr ⟨_, hmem⟩⟩
      · obtain rfl : d = d' := Option.some.inj (hd.symm.trans hdue)
        obtain ⟨htime, hhi⟩ := hx.time d hd
        have hlt : s.now < d := by
          have hl := hx.left hd
          rw [h.ticks] at hleft
          have hleft' : ((s.view i).t.toTime - BitVec.ofNat 32 s.now).toInt > 0 := hleft
          omega
        obtain ⟨w, hw, v, hv1, hv2, hdvd, hb⟩ := bucket_visited hlt hhi
        rcases (mem_moved h.once).mp hon with ⟨hne, -⟩ | ⟨-, hhd⟩
        · exact absurd rfl hne
        · have htime' : (s.kernel.timeouts i).toTime = BitVec.ofNat 32 d := htime
          rw [htime', h.ticks, hb] at hhd
          rw [hhd]
          exact ⟨w, hw, v, hv1, hv2, hdvd, rfl⟩
    · rw [view_congr (s := s)]
      · exact h.ok i
      · rfl
      · intro hd
        refine (mem_moved h.once).trans ?_
        simp [hi]
      all_goals rfl
  · -- due: its function is called
    simp only [step, hsome] at hs
    obtain rfl := Option.some.inj hs
    refine ⟨h.ticks, h.once.remove x, fun i => ?_⟩
    by_cases hi : i = x
    · subst hi
      have hx := h.ok i
      have hc := hx.count
      have hon : (fun hd => i ∈ remove s.kernel.queues i hd) = fun _ => False :=
        funext fun hd => eq_false fun hm => ((mem_remove h.once).mp hm).1 rfl
      simp only [State.view, Kernel.setTimeout, Function.update_self, hon]
      refine View.Ok.idle (x := s.view i) rfl ?_
      rw [hx.onqueue.mpr ⟨_, hmem⟩, Bool.toNat_true] at hc
      simp only [State.view] at hc ⊢
      omega
    · rw [view_congr (s := s)]
      · exact h.ok i
      · exact Function.update_of_ne hi ..
      · intro hd
        refine (mem_remove h.once).trans ?_
        simp [hi]
      · exact Function.update_of_ne hi ..
      · rfl
      · rfl
      · exact Function.update_of_ne hi ..
      · rfl

theorem inv_hardclock (h : Inv s) {s' : State} (hs : step s .hardclock = some s') : Inv s' := by
  simp only [step] at hs
  split_ifs at hs with hdr
  obtain rfl := Option.some.inj hs
  have hticks : s.kernel.ticks + 1#32 = BitVec.ofNat 32 (s.now + 1) := by
    rw [h.ticks, BitVec.ofNat_add]
  refine ⟨hticks, ?_, fun i => ?_⟩
  · show Once (turn (s.kernel.ticks + 1#32) s.kernel.queues)
    rw [turn_eq]
    exact once_moveAll _ h.once
  have hi := h.ok i
  have hq : ∀ hd, i ∈ (timeoutHardclockUpdate s.kernel).1.queues hd
      ↔ i ∈ moveAll (BitVec.ofNat 32 (s.now + 1)) s.kernel.queues (levels (BitVec.ofNat 32 (s.now + 1))) hd := by
    intro hd
    rw [← hticks, ← turn_eq]
    rfl
  refine { hi with onqueue := ?_, time := fun d hd => ?_, placed := fun d hd hdue hon => ?_ }
  · refine hi.onqueue.trans ⟨fun ⟨hd, hon⟩ => ?_, fun ⟨hd, hon⟩ => ?_⟩
    · obtain ⟨hd', hon'⟩ := moveAll_mem (levels (BitVec.ofNat 32 (s.now + 1))) hon
      exact ⟨hd', (hq hd').mpr hon'⟩
    · exact mem_moveAll _ ((hq hd).mp hon)
  · obtain ⟨htime, hlt⟩ := hi.time d hd
    exact ⟨htime, by show d < s.now + 1 + 2 ^ 31; omega⟩
  · have hon' := (hq hd).mp hon
    cases hd with
    | todo =>
      obtain ⟨hd', hold⟩ := mem_moveAll _ hon'
      have hpl := hi.placed d hd' hdue hold
      show s.now + 1 < d ∨ (d = s.now + 1 ∧ _) ∨ (d + 1 = s.now + 1 ∧ _ ∧ _)
      cases hd' with
      | todo =>
        rcases hpl with hlt | ⟨heq, hlate⟩ | ⟨-, hnd, -⟩
        · rcases Nat.lt_or_ge (s.now + 1) d with hlt' | hge
          · exact .inl hlt'
          · exact .inr (.inl ⟨by omega, nofun⟩)
        · exact .inr (.inr ⟨by omega, rfl, hlate hdr⟩)
        · rw [hdr] at hnd
          cases hnd
      | wheel b =>
        obtain ⟨w, -, v, hlt, hle, -⟩ := hpl
        rcases Nat.lt_or_ge (s.now + 1) d with hlt' | hge
        · exact .inl hlt'
        · exact .inr (.inl ⟨by omega, nofun⟩)
    | wheel b =>
      obtain ⟨hold, hturn⟩ := mem_moveAll_wheel _ hon'
      obtain ⟨w, hw, v, hlt, hle, hdvd, hb⟩ := hi.placed d (.wheel b) hdue hold
      -- it was not the turn of this bucket
      have hne : v ≠ s.now + 1 := by
        rintro rfl
        exact hturn w (mem_levels.mpr ⟨hw, hdvd⟩) ((bucketOf_ofNat hw _).trans hb)
      exact ⟨w, hw, v, by show s.now + 1 < v; omega, hle, hdvd, hb⟩

end

/-! ## Runs -/

theorem step_inv (s : State) (a : Act) (s' : State) (hs : step s a = some s') (h : Inv s) : Inv s' := by
  cases a with
  | add new n => exact inv_add h new hs
  | del x => exact inv_del h x hs
  | hardclock => exact inv_hardclock h hs
  | softclock => exact inv_softclock h hs

/-- What the timeouts are for, in a state. -/
structure OnTime (s : State) : Prop where
  /-- A timeout is pending as long as it has neither been called nor deleted, on one queue,
  and its time is the tick it is due. -/
  pending : ∀ i, (s.kernel.timeouts i).onqueue = (s.due i).isSome
    ∧ ((s.kernel.timeouts i).onqueue = true ↔ ∃ h, i ∈ s.kernel.queues h)
    ∧ ∀ d, s.due i = some d → (s.kernel.timeouts i).toTime = BitVec.ofNat 32 d
  ticks : s.kernel.ticks = BitVec.ofNat 32 s.now
  /-- Each arming ends in one call or is cancelled. -/
  count : ∀ i, s.armed i = s.called i + s.cancelled i + (s.kernel.timeouts i).onqueue.toNat
  /-- A function that is called next was due at this tick, or was armed with 0 ticks when the
  worklist had been drained for the last. -/
  call : ∀ k i, softclock s.kernel = some (k, some i) →
    s.due i = some s.now ∨ ∃ d, s.due i = some d ∧ d + 1 = s.now ∧ s.late i = true
  /-- When the worklist has been drained nothing that is pending is due. -/
  drain : softclock s.kernel = none → ∀ i, (s.kernel.timeouts i).onqueue = true →
    0 < ((s.kernel.timeouts i).toTime - s.kernel.ticks).toInt

theorem Inv.call {s : State} (h : Inv s) {k : Kernel} {i : Nat} (hs : softclock s.kernel = some (k, some i)) :
    s.due i = some s.now ∨ ∃ d, s.due i = some d ∧ d + 1 = s.now ∧ s.late i = true := by
  rcases softclock_cases s.kernel with ⟨hnone, -⟩ | ⟨x, hmem, ⟨-, hsome⟩ | ⟨hleft, hsome⟩⟩
  · rw [hs] at hnone
    cases hnone
  · rw [hs] at hsome
    cases hsome
  · obtain rfl : i = x := by
      rw [hs] at hsome
      exact Option.some.inj (Prod.mk.inj (Option.some.inj hsome)).2
    have hx := h.ok i
    obtain ⟨d, hd⟩ := hx.exists_due hmem
    have hl := hx.left hd
    have hleft' : ¬((s.view i).t.toTime - BitVec.ofNat 32 s.now).toInt > 0 := by
      rw [← h.ticks]
      exact hleft
    have hdue : s.due i = some d := hd
    rcases hx.placed d .todo hd hmem with hlt | ⟨heq, -⟩ | ⟨heq, -, hlate⟩
    · omega
    · exact .inl (by rw [hdue, heq])
    · exact .inr ⟨d, hdue, heq, hlate⟩

theorem Inv.drain {s : State} (h : Inv s) (hs : softclock s.kernel = none) {i : Nat}
    (hon : (s.kernel.timeouts i).onqueue = true) :
    0 < ((s.kernel.timeouts i).toTime - s.kernel.ticks).toInt := by
  rcases softclock_cases s.kernel with ⟨-, hempty⟩ | ⟨x, -, ⟨-, hsome⟩ | ⟨-, hsome⟩⟩
  · have hi := h.ok i
    obtain ⟨hd, hmem⟩ := hi.onqueue.mp hon
    obtain ⟨d, hdue⟩ := hi.exists_due hmem
    rw [h.ticks]
    show 0 < ((s.view i).t.toTime - BitVec.ofNat 32 s.now).toInt
    rw [hi.left hdue]
    have hpl := hi.placed d hd hdue hmem
    cases hd with
    | todo =>
      have hmem' : i ∈ s.kernel.queues .todo := hmem
      rw [hempty] at hmem'
      cases hmem'
    | wheel b =>
      obtain ⟨w, -, v, hlt, hle, -⟩ := hpl
      omega
  · rw [hs] at hsome
    cases hsome
  · rw [hs] at hsome
    cases hsome

/-- **Timeouts are called on time**, in every state reached. -/
theorem timeout_runs (t : Nat) (s : State) (hrun : Runs step (fun _ _ => True) (boot t) s) : OnTime s := by
  have hkeep : ∀ s a s', True → step s a = some s' → Inv s → Inv s' := fun s a s' _ => step_inv s a s'
  have h : Inv s := Runs.invariant hkeep hrun (inv_boot t)
  exact {
    pending := fun i => ⟨(h.ok i).pending, (h.ok i).onqueue, fun d hd => ((h.ok i).time d hd).1⟩
    ticks := h.ticks
    count := fun i => (h.ok i).count
    call := fun _ _ => h.call
    drain := fun hs _ => h.drain hs }

/-- One tick is left, and the counter wraps. -/
theorem timeout_runs_wrapping : ∃ s, Runs step (fun _ _ => True) (boot (2 ^ 32 - 1)) s ∧ OnTime s
    ∧ s.kernel.ticks = 0#32 ∧ ∃ k, softclock s.kernel = some (k, some 7) := by
  have hsome : ((Runs.exec step (fun _ _ => true) [.add 7 1#32, .hardclock] (boot (2 ^ 32 - 1))).map fun s =>
      (s.kernel.ticks, (softclock s.kernel).bind (·.2))) = some (0#32, some 7) := by decide
  obtain ⟨s, hs, hfacts⟩ := Option.map_eq_some_iff.mp hsome
  have hrun : Runs step (fun _ _ => True) (boot (2 ^ 32 - 1)) s := Runs.of_exec (fun _ _ _ => trivial) _ hs
  obtain ⟨⟨k, -⟩, hk, rfl⟩ := Option.bind_eq_some_iff.mp (Prod.mk.inj hfacts).2
  exact ⟨s, hrun, timeout_runs _ s hrun, (Prod.mk.inj hfacts).1, k, hk⟩

/-- Armed with 0 ticks after the worklist was drained, a timeout is called one tick late. -/
theorem timeout_runs_late : ¬∀ s, Runs step (fun _ _ => True) (boot 0) s →
    ∀ k i, softclock s.kernel = some (k, some i) → (s.kernel.timeouts i).toTime = s.kernel.ticks := by
  intro hclaim
  have hsome : ((Runs.exec step (fun _ _ => true) [.add 7 0#32, .hardclock] (boot 0)).map fun s =>
      ((s.kernel.timeouts 7).toTime, s.kernel.ticks, (softclock s.kernel).bind (·.2)))
      = some (0#32, 1#32, some 7) := by decide
  obtain ⟨s, hs, hfacts⟩ := Option.map_eq_some_iff.mp hsome
  have hrun : Runs step (fun _ _ => True) (boot 0) s := Runs.of_exec (fun _ _ _ => trivial) _ hs
  simp only [Prod.mk.injEq] at hfacts
  obtain ⟨htime, hticks, hcall⟩ := hfacts
  obtain ⟨⟨k, -⟩, hk, rfl⟩ := Option.bind_eq_some_iff.mp hcall
  have heq := hclaim s hrun k 7 hk
  rw [htime, hticks] at heq
  cases heq

end Obsd.Timeout
