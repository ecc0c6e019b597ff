import Mathlib
import Obsd.ClistRuns

/-!
# The lists that calls lead to

A call that has a result leaves its lists as the code keeps them, so every
list that is reached has its pointers where the count says. The one call
that may have no result is `q_to_b`, for the quote bits that it clears:
`clrbitsTouched` lists the bytes of `c_cq` that `clrbits` goes to, and the
call has a result exactly if they are in the array.
-/

namespace Obsd.Tty

variable {q q' : Clist} {f k l count size off len : Nat}

/-! ## The bytes `clrbits` goes to -/

/-- The bytes of the array that `clrbits` reads and writes. -/
def clrbitsTouched (off len : Nat) : List Nat :=
  if len = 1 then [off / 8]
  else
    let sby := off / 8
    let eby := (off + len) / 8
    let ebi := (off + len) % 8
    if sby = eby then [sby]
    else sby :: List.range' (sby + 1) (eby - (sby + 1)) ++ if lowMask ebi ≠ 0#8 then [eby] else []

/-- They are in the array if that of the last bit is. -/
theorem clrbitsTouched_lt_iff (hlen : 0 < len) :
    (∀ b ∈ clrbitsTouched off len, b < size) ↔ (off + len - 1) / 8 < size := by
  unfold clrbitsTouched
  by_cases h1 : len = 1
  · subst h1
    simp
  · rw [if_neg h1]
    by_cases hby : off / 8 = (off + len) / 8
    · have hlast : (off + len - 1) / 8 = off / 8 := by omega
      rw [if_pos hby, hlast]
      simp
    · rw [if_neg hby]
      have hebi := lowMask_eq_zero ⟨(off + len) % 8, Nat.mod_lt _ (by decide)⟩
      constructor
      · intro hall
        by_cases hz : (off + len) % 8 = 0
        · -- the last byte is the one before `eby`
          by_cases hone : off / 8 + 1 = (off + len) / 8
          · have hlast : (off + len - 1) / 8 = off / 8 := by omega
            rw [hlast]
            exact hall _ (List.mem_append_left _ List.mem_cons_self)
          · refine hall _ (List.mem_append_left _ (List.mem_cons_of_mem _ ?_))
            rw [List.mem_range'_1]
            omega
        · have hlast : (off + len - 1) / 8 = (off + len) / 8 := by omega
          rw [hlast]
          refine hall _ (List.mem_append_right _ ?_)
          rw [if_pos fun h => hz (hebi.mp h)]
          exact List.mem_singleton_self _
      · intro hlast b hb
        rcases List.mem_append.mp hb with hb | hb
        · rcases List.mem_cons.mp hb with rfl | hb
          · omega
          · rw [List.mem_range'_1] at hb
            omega
        · split at hb
          · rename_i hz
            rw [List.mem_singleton.mp hb]
            have hne : (off + len) % 8 ≠ 0 := fun h => hz (hebi.mpr h)
            omega
          · cases hb

theorem andByte_isSome {cp : Nat → BitVec 8} {i : Nat} {mask : BitVec 8} :
    (andByte size cp i mask).isSome = true ↔ i < size := by
  unfold andByte
  split
  · exact iff_of_true rfl ‹_›
  · exact iff_of_false Bool.false_ne_true ‹_›

theorem zeroBytes_lt {cp cp' : Nat → BitVec 8} {i : Nat} (h : zeroBytes size k i cp = some cp') :
    ∀ b, i ≤ b → b < i + k → b < size := by
  induction k generalizing i cp with
  | zero => intro b h1 h2; omega
  | succ k ih =>
    rw [zeroBytes] at h
    split at h
    · intro b h1 h2
      rcases Nat.eq_or_lt_of_le h1 with rfl | h1
      · assumption
      · exact ih h b h1 (by omega)
    · cases h

/-- `clrbits` has a result exactly if all the bytes it goes to are in the array. -/
theorem clrbitsBytes_isSome {cp : Nat → BitVec 8} (hlen : 0 < len) :
    (clrbitsBytes size cp off len).isSome = true ↔ ∀ b ∈ clrbitsTouched off len, b < size := by
  constructor
  · intro h b hb
    obtain ⟨cp', h⟩ := Option.isSome_iff_exists.mp h
    unfold clrbitsBytes at h
    unfold clrbitsTouched at hb
    split at h
    · rw [if_pos ‹_›, List.mem_singleton] at hb
      split at h
      · rw [hb]
        assumption
      · cases h
    · rw [if_neg ‹_›] at hb
      dsimp only at h hb
      split at h
      · rw [if_pos ‹_›, List.mem_singleton] at hb
        rw [hb]
        exact andByte_isSome.mp (Option.isSome_of_eq_some h)
      · rw [if_neg ‹_›] at hb
        obtain ⟨cp₁, h₁, h⟩ := Option.bind_eq_some_iff.mp h
        obtain ⟨cp₂, h₂, h⟩ := Option.bind_eq_some_iff.mp h
        have hfirst := andByte_isSome.mp (Option.isSome_of_eq_some h₁)
        rcases List.mem_append.mp hb with hb | hb
        · rcases List.mem_cons.mp hb with rfl | hb
          · exact hfirst
          · rw [List.mem_range'_1] at hb
            exact zeroBytes_lt h₂ b hb.1 hb.2
        · split at hb
          · rw [if_pos ‹_›] at h
            rw [List.mem_singleton.mp hb]
            exact andByte_isSome.mp (Option.isSome_of_eq_some h)
          · cases hb
  · intro hall
    obtain ⟨cp', hcp', -⟩ := clrbitsBytes_spec cp hlen ((clrbitsTouched_lt_iff hlen).mp hall)
    exact Option.isSome_of_eq_some hcp'

/-! ## `q_to_b` -/

/-- The list after a turn of `q_to_b`, if `cq` are its quote bits then. -/
def Clist.taken (q : Clist) (f k : Nat) (cq : Option (Nat → BitVec 8)) : Clist :=
  { q with
    cs := fun j => if f ≤ j ∧ j < f + k then 0 else q.cs j
    cq := cq, cc := q.cc - k, cf := some (q.after (f + k)) }

theorem Placed.taken (hp : Placed q f) (hk : k ≤ q.cc) (hkn : f + k ≤ q.cn)
    (cq : Option (Nat → BitVec 8)) : Placed (q.taken f k cq) ((f + k) % q.cn) := by
  have le := hp.le
  refine ⟨Nat.mod_lt _ hp.pos, (Nat.sub_le _ _).trans le, ?_, ?_⟩
  · exact congrArg some (RingBuf.wrap_eq_mod hkn)
  · refine hp.cl.trans (congrArg some ?_)
    rw [Clist.taken, Nat.mod_add_mod, Nat.add_assoc, Nat.add_sub_cancel' hk]

theorem clearFits_iff (hf : q.cf = some f) (hl : q.cl = some l) :
    clearFits q count ↔ (q.cq.isSome = true →
      (if f < l then min count q.cc else min count q.cc - (q.cn - f)) = 0
        ∨ (l + (if f < l then min count q.cc else min count q.cc - (q.cn - f)) - 1) / 8 < qmem q.cn) := by
  constructor
  · exact fun h => h f l hf hl
  · intro h f' l' hf' hl'
    obtain rfl := Option.some.inj (hf.symm.trans hf')
    obtain rfl := Option.some.inj (hl.symm.trans hl')
    exact h

/-- The bits of a call are in the array if those of the first turn and of the others are. -/
theorem clearFits_turn (hp : Placed q f) (hcc : q.cc ≠ 0) (hcount : count ≠ 0)
    (hk : k = min (stretch q f ((f + q.cc) % q.cn)) count) {cq : Option (Nat → BitVec 8)}
    (hcq : cq.isSome = q.cq.isSome) :
    clearFits q count ↔
      (q.cq.isSome = true → ((f + q.cc) % q.cn + k - 1) / 8 < qmem q.cn)
        ∧ clearFits (q.taken f k cq) (count - k) := by
  have lt := hp.lt
  have le := hp.le
  rw [hp.stretch hcc] at hk
  rw [clearFits_iff hp.cf hp.cl,
    clearFits_iff (q := q.taken f k cq) (f := if f + k = q.cn then 0 else f + k) rfl hp.cl]
  dsimp only [Clist.taken]
  rw [hcq]
  cases q.cq.isSome with
  | false => simp
  | true =>
    simp only [forall_true_left]
    rw [RingBuf.slot_eq lt le]
    by_cases hin : f + q.cc < q.cn
    · -- all is before the end: there is one turn
      have hn : min count q.cc = k := by omega
      have hrest : min (count - k) (q.cc - k) = 0 := by omega
      rw [if_pos hin, if_pos (by omega), hn, hrest, Nat.zero_sub, ite_self, or_iff_right (by omega)]
      exact (and_iff_left (.inl rfl)).symm
    · -- the first turn clears bits of places before the end
      have hfirst : (f + q.cc - q.cn + k - 1) / 8 < qmem q.cn := lt_qmem (by omega)
      rw [if_neg hin, if_neg (by omega), and_iff_right hfirst]
      by_cases hend : f + k = q.cn
      · have hrest : min (count - k) (q.cc - k) = min count q.cc - (q.cn - f) := by omega
        rw [if_pos hend, hrest]
        by_cases hl : 0 < f + q.cc - q.cn
        · rw [if_pos hl]
        · rw [if_neg hl]
          exact iff_of_true (.inl (by omega)) (.inl (by omega))
      · have hnone : min count q.cc - (q.cn - f) = 0 := by omega
        have hrest : min (count - k) (q.cc - k) = 0 := by omega
        rw [if_neg hend, hnone, hrest, Nat.zero_sub, ite_self]

theorem qToBLoop_isSome (fuel : Nat) (p : List UInt8) (hp : Placed q f) (hfuel : count ≤ fuel) :
    (qToBLoop fuel count p q).isSome = true ↔ clearFits q count := by
  constructor
  · intro h
    induction fuel generalizing count q f p with
    | zero =>
      obtain rfl := Nat.le_zero.mp hfuel
      intro f l _ _ _
      simp
    | succ fuel ih =>
      by_cases hdone : count = 0 ∨ q.cc = 0
      · intro f l _ _ _
        rcases hdone with h0 | h0 <;> simp [h0]
      · obtain ⟨hcount, hcc⟩ := not_or.mp hdone
        have lt := hp.lt
        obtain ⟨k, hk⟩ : ∃ k, k = min (stretch q f ((f + q.cc) % q.cn)) count := ⟨_, rfl⟩
        have hstretch := hp.stretch hcc
        have hk0 : 0 < k := by omega
        have hkn : f + k ≤ q.cn := by omega
        rw [qToBLoop, if_neg hdone, hp.cf, hp.cl] at h
        simp only [Option.bind_eq_bind, Option.bind_some, ← hk, takeBytes, if_pos hkn] at h
        obtain ⟨⟨p', q₂⟩, h⟩ := Option.isSome_iff_exists.mp h
        obtain ⟨q₁, hclr, h⟩ := Option.bind_eq_some_iff.mp h
        obtain ⟨cq, hq₁, hsame, hbits⟩ : ∃ cq, q₁ = { q with
            cs := fun j => if f ≤ j ∧ j < f + k then 0 else q.cs j, cq := cq }
            ∧ cq.isSome = q.cq.isSome
            ∧ (q.cq.isSome = true → ((f + q.cc) % q.cn + k - 1) / 8 < qmem q.cn) := by
          cases hcq : q.cq with
          | none =>
            rw [hcq] at hclr
            refine ⟨none, ?_, rfl, by simp⟩
            exact (Option.some.inj hclr).symm
          | some map =>
            rw [hcq] at hclr
            obtain ⟨map', hmap, hq⟩ := Option.map_eq_some_iff.mp hclr
            refine ⟨some map', hq.symm, rfl, fun _ => ?_⟩
            exact (clrbitsTouched_lt_iff hk0).mp
              ((clrbitsBytes_isSome hk0).mp (Option.isSome_of_eq_some hmap))
        refine (clearFits_turn hp hcc hcount hk hsame).mpr ⟨hbits, ?_⟩
        rw [hq₁] at h
        have hrest : qToBLoop fuel (count - k) (p ++ (List.range k).map fun i => q.cs (f + i))
            (q.taken f k cq) = some (p', q₂) := h
        exact ih _ (hp.taken (by omega) hkn cq) (by omega) (Option.isSome_of_eq_some hrest)
  · intro hfits
    obtain ⟨q', f', hrun, -⟩ := qToBLoop_spec fuel p hp hfuel hfits
    exact Option.isSome_of_eq_some hrun

/-- `q_to_b` has a result exactly if the bits it clears are in the array. -/
theorem qToB_isSome (h : Wf q) : (qToB q count).isSome = true ↔ clearFits q count := by
  by_cases hcc : q.cc = 0
  · have hfits : clearFits q count := by
      intro f l _ _ _
      simp [hcc]
    obtain ⟨r, q', hq, -⟩ := qToB_spec h hfits
    exact iff_of_true (Option.isSome_of_eq_some hq) hfits
  · obtain ⟨f, hp⟩ := h.placed hcc
    rw [qToB, Option.isSome_map, qToBLoop_isSome count [] hp le_rfl]

/-! ## Reached lists -/

variable {ι : Type*} [DecidableEq ι] {s s' : ι → Clist}

theorem catq_wf {src dst src' dst' : Clist} (hs : Wf src) (hd : Wf dst)
    (h : catq src dst = some (src', dst')) : Wf src' ∧ Wf dst' := by
  unfold catq at h
  split at h
  · obtain ⟨rfl, rfl⟩ := Prod.mk.inj (Option.some.inj h)
    exact ⟨hs, hd⟩
  · split at h
    · obtain ⟨rfl, rfl⟩ := Prod.mk.inj (Option.some.inj h)
      exact ⟨hd, hs⟩
    · obtain ⟨src₁, dst₁, hrun, hs₁, hd₁, -⟩ := catqLoop_spec (src.cc + 1) hs hd (Nat.lt_succ_self _)
      obtain ⟨rfl, rfl⟩ := Prod.mk.inj (Option.some.inj (hrun.symm.trans h))
      exact ⟨hs₁, hd₁⟩

/-- A result of a call that is known to have one. -/
theorem wf_of_spec {α : Type*} {x : Option (α × Clist)} {P : α → Clist → Prop} {r : α × Clist}
    (hspec : ∃ a q', x = some (a, q') ∧ Wf q' ∧ P a q') (h : x = some r) : Wf r.2 := by
  obtain ⟨a, q', hx, hwf, -⟩ := hspec
  rw [hx] at h
  obtain rfl := Option.some.inj h
  exact hwf

/-- Every call with a result leaves the lists as the code keeps them. -/
theorem call_wf {c : Call ι} {r : Result} (hs : ∀ i, Wf (s i)) (h : call s c = some (r, s')) (i : ι) :
    Wf (s' i) := by
  cases c with
  | putc c j =>
    obtain ⟨x, hx, h⟩ := Option.map_eq_some_iff.mp h
    obtain ⟨-, rfl⟩ := Prod.mk.inj h
    exact wf_update hs (wf_of_spec (putc_spec c (hs j)) hx) j i
  | getc j =>
    obtain ⟨x, hx, h⟩ := Option.map_eq_some_iff.mp h
    obtain ⟨-, rfl⟩ := Prod.mk.inj h
    exact wf_update hs (wf_of_spec (getc_spec (hs j)) hx) j i
  | unputc j =>
    obtain ⟨x, hx, h⟩ := Option.map_eq_some_iff.mp h
    obtain ⟨-, rfl⟩ := Prod.mk.inj h
    exact wf_update hs (wf_of_spec (unputc_spec (hs j)) hx) j i
  | bToQ p j =>
    obtain ⟨x, hx, h⟩ := Option.map_eq_some_iff.mp h
    obtain ⟨-, rfl⟩ := Prod.mk.inj h
    exact wf_update hs (wf_of_spec (bToQ_spec p (hs j)) hx) j i
  | qToB j count =>
    obtain ⟨x, hx, h⟩ := Option.map_eq_some_iff.mp h
    obtain ⟨-, rfl⟩ := Prod.mk.inj h
    have hfits := (qToB_isSome (hs j)).mp (Option.isSome_of_eq_some hx)
    exact wf_update hs (wf_of_spec (qToB_spec (hs j) hfits) hx) j i
  | ndflush j count =>
    obtain ⟨x, hx, h⟩ := Option.map_eq_some_iff.mp h
    obtain ⟨-, rfl⟩ := Prod.mk.inj h
    obtain ⟨q', hq', hwf, -⟩ := ndflush_spec (hs j) count
    obtain rfl := Option.some.inj (hq'.symm.trans hx)
    exact wf_update hs hwf j i
  | catq j k =>
    rw [call] at h
    split at h
    · split at h
      · obtain ⟨-, rfl⟩ := Prod.mk.inj (Option.some.inj h)
        exact hs i
      · cases h
    · obtain ⟨⟨src, dst⟩, hx, h⟩ := Option.map_eq_some_iff.mp h
      obtain ⟨-, rfl⟩ := Prod.mk.inj h
      obtain ⟨h1, h2⟩ := catq_wf (hs j) (hs k) hx
      exact wf_update (wf_update hs h1 j) h2 k i

/-- So do all the calls of a run. -/
theorem run_wf {cs : List (Call ι)} {rs : List Result} (hs : ∀ i, Wf (s i))
    (h : run cs s = some (rs, s')) (i : ι) : Wf (s' i) := by
  induction cs generalizing s rs with
  | nil =>
    obtain ⟨-, rfl⟩ := Prod.mk.inj (Option.some.inj h)
    exact hs i
  | cons c cs ih =>
    obtain ⟨⟨r, s₁⟩, hc, h⟩ := Option.bind_eq_some_iff.mp h
    obtain ⟨⟨rs', s₂⟩, hrun, h⟩ := Option.map_eq_some_iff.mp h
    obtain ⟨-, rfl⟩ := Prod.mk.inj h
    exact ih (call_wf hs hc) hrun

/-- The lists that calls lead to from those `clalloc` makes. -/
theorem reached_wf {size : ι → Nat} {quot : ι → Bool} {cs : List (Call ι)} {rs : List Result}
    (h : run cs (fresh size quot) = some (rs, s)) (i : ι) : Wf (s i) :=
  run_wf (fun i => wf_clalloc (size i) (quot i)) h i

end Obsd.Tty
