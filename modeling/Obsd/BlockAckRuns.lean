import Mathlib
import Obsd.BlockAck

/-!
# Block Ack reordering over runs

Sequence numbers wrap, so the results are stated about numbers that do
not: `base` is `ba_winstart` counted up over the whole run, and a frame's
number is its distance from `ba_winstart` on top of that. In these terms
the buffer is a window of the numbers from `base` on, every call moves the
window forward, and what it passes up are the frames it leaves behind.
-/

namespace Obsd.BlockAck

variable {α : Type*} {ba ba' ba'' : RxBa α} {W W' W'' n i : Nat}

theorem low12_lt (x : Int) : low12 x < 4096 := by
  unfold low12
  omega

/-! ## The ring -/

/-- The slot `i` places behind the head. -/
def slotAt (ba : RxBa α) (i : Nat) : Option (Slot α) := ba.buf ((ba.head + i) % baMaxWinsz)

theorem slotAt_zero (h : ba.head < baMaxWinsz) : slotAt ba 0 = ba.buf ba.head := by
  rw [slotAt, Nat.add_zero, Nat.mod_eq_of_lt h]

/-- The head of `ba'` is `n` slots behind the one of `ba`, and the slots in
between are empty. -/
structure Shifted (n : Nat) (ba ba' : RxBa α) : Prop where
  head : ba'.head < baMaxWinsz
  slots : ∀ i < baMaxWinsz,
    slotAt ba' i = if i + n < baMaxWinsz then slotAt ba (i + n) else none
  winsize : ba'.winsize = ba.winsize

theorem Shifted.refl (h : ba.head < baMaxWinsz) : Shifted 0 ba ba where
  head := h
  slots := fun i hi => by rw [Nat.add_zero, if_pos hi]
  winsize := rfl

theorem Shifted.add (h : Shifted 1 ba ba') (h' : Shifted n ba' ba'') : Shifted (n + 1) ba ba'' where
  head := h'.head
  slots := by
    intro i hi
    rw [h'.slots i hi]
    by_cases hin : i + n < baMaxWinsz
    · rw [if_pos hin, h.slots _ hin, Nat.add_assoc]
    · rw [if_neg hin, if_neg (by omega)]
  winsize := h'.winsize.trans h.winsize

/-- Emptying the head's slot and going on to the next. -/
theorem Shifted.next (h : ba.head < baMaxWinsz) :
    Shifted 1 ba (ba.put ba.head none).nextHead where
  head := Nat.mod_lt _ (by decide)
  slots := by
    intro i hi
    have hslot : slotAt (ba.put ba.head none).nextHead i
        = Function.update ba.buf ba.head none ((ba.head + (i + 1)) % baMaxWinsz) := by
      show Function.update ba.buf ba.head none (((ba.head + 1) % baMaxWinsz + i) % baMaxWinsz) = _
      rw [Nat.mod_add_mod, Nat.add_assoc, Nat.add_comm 1 i]
    have hhead : ba.head = (ba.head + 0) % baMaxWinsz := by
      rw [Nat.add_zero, Nat.mod_eq_of_lt h]
    by_cases hin : i + 1 < baMaxWinsz
    · rw [if_pos hin, hslot]
      have hother := RingBuf.update_slot ba.buf (f := ba.head) hin (Nat.zero_lt_of_lt hi) none
      rw [← hhead, if_neg (Nat.succ_ne_zero i)] at hother
      exact hother
    · have hlast : i + 1 = baMaxWinsz := by omega
      rw [if_neg hin, hslot, hlast, Nat.add_mod_right, Nat.mod_eq_of_lt h, Function.update_self]
  winsize := rfl

theorem flush_succ (count : Nat) (ba : RxBa α) :
    flush (count + 1) ba = ((ba.buf ba.head).toList ++ (flush count (ba.put ba.head none).nextHead).1,
      (flush count (ba.put ba.head none).nextHead).2) := by
  rw [flush]
  cases hslot : ba.buf ba.head with
  | some slot => rfl
  | none =>
    have hput : ba.put ba.head none = ba := by
      rw [RxBa.put, ← hslot, Function.update_eq_self]
    rw [hput]
    rfl

/-- What the slots before the `n`-th hold, in order. -/
def firstSlots (ba : RxBa α) (n : Nat) : List (Slot α) := (List.range n).filterMap (slotAt ba)

theorem firstSlots_succ (h : ba.head < baMaxWinsz) (h' : Shifted 1 ba ba') (hn : n < baMaxWinsz) :
    firstSlots ba (n + 1) = (ba.buf ba.head).toList ++ firstSlots ba' n := by
  have hrest : firstSlots ba' n = (List.range n).filterMap fun i => slotAt ba (i + 1) := by
    refine List.filterMap_congr fun i hi => ?_
    have hi' := List.mem_range.mp hi
    rw [h'.slots i (by omega), if_pos (by omega)]
  rw [hrest, firstSlots, List.range_succ_eq_map, List.filterMap_cons, List.filterMap_map,
    slotAt_zero h]
  cases ba.buf ba.head <;> rfl

theorem flush_spec (h : ba.head < baMaxWinsz) (hn : n ≤ baMaxWinsz) :
    (flush n ba).1 = firstSlots ba n ∧ Shifted n ba (flush n ba).2 := by
  induction n generalizing ba with
  | zero => exact ⟨rfl, .refl h⟩
  | succ n ih =>
    have hnext := Shifted.next h
    obtain ⟨hup, hshift⟩ := ih hnext.head (by omega)
    rw [flush_succ]
    exact ⟨by rw [hup, firstSlots_succ h hnext (by omega)], hnext.add hshift⟩

/-- The loop stops at an empty slot, and has passed up the slots before
it. -/
theorem passUp_spec (turns : Nat) (h : ba.head < baMaxWinsz) (ht : turns ≤ baMaxWinsz) :
    ∃ k ≤ turns, (passUp turns ba).1 = firstSlots ba k ∧ Shifted k ba (passUp turns ba).2
      ∧ (k < turns → slotAt (passUp turns ba).2 0 = none)
      ∧ low12 (passUp turns ba).2.winstart = low12 (ba.winstart + k)
      ∧ (ba.winstart < 4096 → (passUp turns ba).2.winstart < 4096) := by
  induction turns generalizing ba with
  | zero => exact ⟨0, le_rfl, rfl, .refl h, fun h => absurd h (lt_irrefl 0), rfl, id⟩
  | succ turns ih =>
    rw [passUp]
    cases hslot : ba.buf ba.head with
    | none =>
      exact ⟨0, Nat.zero_le _, rfl, .refl h, fun _ => (slotAt_zero h).trans hslot, rfl, id⟩
    | some slot =>
      have hnext := Shifted.next h
      have hnext' : Shifted 1 ba { (ba.put ba.head none).nextHead with
          winstart := low12 ((ba.put ba.head none).nextHead.winstart + 1) } :=
        ⟨hnext.head, hnext.slots, hnext.winsize⟩
      obtain ⟨k, hk, hup, hshift, hstop, hstart, hlt⟩ := ih hnext'.head (by omega)
      refine ⟨k + 1, by omega, ?_, hnext'.add hshift, fun hlt => hstop (by omega), ?_, fun _ => ?_⟩
      · rw [firstSlots_succ h hnext' (by omega), hslot, ← hup]
        rfl
      · refine hstart.trans ?_
        show low12 ((low12 (ba.winstart + 1) : Int) + k) = low12 (ba.winstart + (k + 1 : Nat))
        unfold low12
        omega
      · exact hlt (low12_lt ((ba.put ba.head none).nextHead.winstart + 1))

/-! ## The window -/

/-- The ring holds frames of the numbers from `W` on: `winsize` of them at
most, each in its own slot. -/
structure Window (W : Nat) (ba : RxBa α) : Prop where
  head : ba.head < baMaxWinsz
  pos : 0 < ba.winsize
  le : ba.winsize ≤ baMaxWinsz
  start : ba.winstart = W % 4096
  slots : ∀ i < baMaxWinsz, ∀ f, slotAt ba i = some f → i < ba.winsize ∧ f.m.sn = (W + i) % 4096

/-- The numbers in `l` go up from `lo`, stay below `hi` and are those of
their frames. -/
structure Ascending (lo hi : Nat) (l : List (Nat × Slot α)) : Prop where
  sorted : l.Pairwise fun p q => p.1 < q.1
  bounds : ∀ p ∈ l, lo ≤ p.1 ∧ p.1 < hi
  sn : ∀ p ∈ l, p.2.m.sn = p.1 % 4096

theorem Ascending.append {l l' : List (Nat × Slot α)} (h : Ascending W W' l)
    (h' : Ascending W' W'' l') (hle : W ≤ W') (hle' : W' ≤ W'') : Ascending W W'' (l ++ l') where
  sorted := List.pairwise_append.mpr ⟨h.sorted, h'.sorted, fun p hp q hq =>
    Nat.lt_of_lt_of_le (h.bounds p hp).2 (h'.bounds q hq).1⟩
  bounds := by
    intro p hp
    rcases List.mem_append.mp hp with hp | hp
    · exact ⟨(h.bounds p hp).1, Nat.lt_of_lt_of_le (h.bounds p hp).2 hle'⟩
    · exact ⟨hle.trans (h'.bounds p hp).1, (h'.bounds p hp).2⟩
  sn := by
    intro p hp
    rcases List.mem_append.mp hp with hp | hp
    · exact h.sn p hp
    · exact h'.sn p hp

theorem Ascending.nil (W W' : Nat) : Ascending W W' ([] : List (Nat × Slot α)) :=
  ⟨.nil, nofun, nofun⟩

/-- The frame `f` waits under the number `n`. -/
def Waits (W : Nat) (ba : RxBa α) (n : Nat) (f : Slot α) : Prop :=
  ∃ i < baMaxWinsz, n = W + i ∧ slotAt ba i = some f

/-- The window goes from `W` to `W'` and passes up `l`; what waits is
passed up or goes on waiting. -/
structure Moves (W : Nat) (ba : RxBa α) (l : List (Nat × Slot α)) (W' : Nat) (ba' : RxBa α) :
    Prop where
  le : W ≤ W'
  window : Window W' ba'
  winsize : ba'.winsize = ba.winsize
  up : Ascending W W' l
  kept : ∀ n f, Waits W ba n f → (n, f) ∈ l ∨ Waits W' ba' n f

theorem Moves.trans {l l' : List (Nat × Slot α)} (h : Moves W ba l W' ba')
    (h' : Moves W' ba' l' W'' ba'') : Moves W ba (l ++ l') W'' ba'' where
  le := h.le.trans h'.le
  window := h'.window
  winsize := h'.winsize.trans h.winsize
  up := h.up.append h'.up h.le h'.le
  kept := by
    intro n f hw
    rcases h.kept n f hw with hl | hw'
    · exact .inl (List.mem_append_left _ hl)
    · exact (h'.kept n f hw').imp (List.mem_append_right _) id

theorem Moves.refl (h : Window W ba) : Moves W ba [] W ba :=
  ⟨le_rfl, h, rfl, .nil W W, fun _ _ hw => .inr hw⟩

/-- The first `n` slots with their numbers. -/
def firstNumbered (W : Nat) (ba : RxBa α) (n : Nat) : List (Nat × Slot α) :=
  (List.range n).filterMap fun i => (slotAt ba i).map fun f => (W + i, f)

theorem firstNumbered_snd (W : Nat) (ba : RxBa α) (n : Nat) :
    (firstNumbered W ba n).map Prod.snd = firstSlots ba n := by
  rw [firstNumbered, List.map_filterMap, firstSlots]
  refine List.filterMap_congr fun i _ => ?_
  cases slotAt ba i <;> rfl

theorem mem_firstNumbered {p : Nat × Slot α} :
    p ∈ firstNumbered W ba n ↔ ∃ i < n, slotAt ba i = some p.2 ∧ p.1 = W + i := by
  obtain ⟨m, f⟩ := p
  simp only [firstNumbered, List.mem_filterMap, List.mem_range, Option.map_eq_some_iff,
    Prod.mk.injEq]
  constructor
  · rintro ⟨i, hi, f', hf, hm, rfl⟩
    exact ⟨i, hi, hf, hm.symm⟩
  · rintro ⟨i, hi, hf, hm⟩
    exact ⟨i, hi, f, hf, hm.symm, rfl⟩

theorem Window.firstNumbered (h : Window W ba) (hn : n ≤ baMaxWinsz) :
    Ascending W (W + n) (firstNumbered W ba n) where
  sorted := by
    refine List.pairwise_filterMap.mpr (List.pairwise_lt_range.imp fun {i j} hij => ?_)
    simp only [Option.map_eq_some_iff]
    rintro p ⟨f, -, rfl⟩ q ⟨f', -, rfl⟩
    exact Nat.add_lt_add_left hij W
  bounds := by
    intro p hp
    obtain ⟨i, hi, -, hpi⟩ := mem_firstNumbered.mp hp
    omega
  sn := by
    intro p hp
    obtain ⟨i, hi, hf, hpi⟩ := mem_firstNumbered.mp hp
    rw [hpi]
    exact (h.slots i (by omega) _ hf).2

/-- The window moves on by `d` numbers when the head leaves behind as many
slots, or all slots of the window. -/
theorem Window.moves {d : Nat} (h : Window W ba) (hshift : Shifted n ba ba')
    (hn : n = d ∨ n = ba.winsize ∧ ba.winsize < d)
    (hle : n ≤ baMaxWinsz) (hstart : ba'.winstart = (W + d) % 4096) :
    Moves W ba (BlockAck.firstNumbered W ba n) (W + d) ba' where
  le := Nat.le_add_right W d
  winsize := hshift.winsize
  window :=
    { head := hshift.head
      pos := hshift.winsize ▸ h.pos
      le := hshift.winsize ▸ h.le
      start := hstart
      slots := by
        intro i hi f hf
        rw [hshift.slots i hi] at hf
        split at hf
        · rename_i hin
          obtain ⟨hlt, hsn⟩ := h.slots (i + n) hin f hf
          have hnd : n = d := by omega
          rw [hshift.winsize, hsn]
          exact ⟨by omega, by rw [hnd, Nat.add_assoc, Nat.add_comm i d]⟩
        · exact absurd hf (by simp) }
  up := by
    have hup := h.firstNumbered hle
    exact ⟨hup.sorted, fun p hp => ⟨(hup.bounds p hp).1, by have := (hup.bounds p hp).2; omega⟩,
      hup.sn⟩
  kept := by
    rintro m f ⟨i, hi, rfl, hf⟩
    by_cases hin : i < n
    · exact .inl (mem_firstNumbered.mpr ⟨i, hin, hf, rfl⟩)
    · have hw := (h.slots i hi f hf).1
      refine .inr ⟨i - n, by omega, by omega, ?_⟩
      rw [hshift.slots (i - n) (by omega), if_pos (by omega), Nat.sub_add_cancel (by omega), hf]

/-! ## The calls -/

/-- `ba_winend` is the last number of the window. -/
def EndsRight (ba : RxBa α) : Prop := ba.winend = low12 (ba.winstart + ba.winsize - 1)

theorem Window.passUp (h : Window W ba) :
    ∃ k ≤ baMaxWinsz, ∃ l, (passUp baMaxWinsz ba).1 = l.map Prod.snd
      ∧ Moves W ba l (W + k) (passUp baMaxWinsz ba).2 := by
  obtain ⟨k, hk, hup, hshift, -, hstart, hlt⟩ := passUp_spec baMaxWinsz h.head le_rfl
  have hlt' := hlt (h.start ▸ Nat.mod_lt W (by decide))
  refine ⟨k, hk, BlockAck.firstNumbered W ba k, ?_, h.moves hshift (.inl rfl) hk ?_⟩
  · rw [firstNumbered_snd, hup]
  · rw [h.start] at hstart
    unfold low12 at hstart
    omega

/-- The capped loop moves the window on by the whole distance. -/
theorem Window.flush {d : Nat} (h : Window W ba) :
    ∃ l, (flush (if ba.winsize < d then ba.winsize else d) ba).1 = l.map Prod.snd
      ∧ ∀ ba', ba'.buf = (flush (if ba.winsize < d then ba.winsize else d) ba).2.buf →
        ba'.head = (flush (if ba.winsize < d then ba.winsize else d) ba).2.head →
        ba'.winsize = (flush (if ba.winsize < d then ba.winsize else d) ba).2.winsize →
        ba'.winstart = (W + d) % 4096 → Moves W ba l (W + d) ba' := by
  have hwin := h.le
  have hle : (if ba.winsize < d then ba.winsize else d) ≤ baMaxWinsz := by split <;> omega
  obtain ⟨hup, hshift⟩ := flush_spec h.head hle
  refine ⟨_, by rw [hup, firstNumbered_snd W], fun ba' hbuf hhead hsize hstart => ?_⟩
  refine h.moves ?_ (by split <;> omega) hle hstart
  refine ⟨hhead ▸ hshift.head, fun i hi => ?_, hsize.trans hshift.winsize⟩
  rw [← hshift.slots i hi, slotAt, slotAt, hbuf, hhead]

/-- A frame finds a slot in the window, which moves on only for a frame
behind it. -/
theorem Window.makeRoom (h : Window W ba) (hend : EndsRight ba) {sn off : Nat} (hsn : sn < 4096)
    (hoff : low12 ((sn : Int) - ba.winstart) = off) (hhalf : off ≤ 2048)
    (hone : ba.winsize = 1 → off ≠ 2048) :
    ∃ e ≤ 2048, ∃ l, (makeRoom ba sn).1 = l.map Prod.snd
      ∧ Moves W ba l (W + e) (makeRoom ba sn).2 ∧ EndsRight (makeRoom ba sn).2
      ∧ low12 ((sn : Int) - (makeRoom ba sn).2.winstart) + e = off
      ∧ low12 ((sn : Int) - (makeRoom ba sn).2.winstart) < ba.winsize
      ∧ (off < ba.winsize → (makeRoom ba sn).2 = ba) := by
  have hpos := h.pos
  have hle := h.le
  have hstart := h.start
  have hmax : baMaxWinsz = 128 := rfl
  unfold EndsRight at hend
  by_cases hin : off < ba.winsize
  · have hlt : seqLt ba.winend sn = false := by
      unfold seqLt
      unfold low12 at *
      rw [decide_eq_false_iff_not]
      omega
    have hroom : BlockAck.makeRoom ba sn = ([], ba) := by
      rw [BlockAck.makeRoom, hlt]
      rfl
    rw [hroom]
    exact ⟨0, Nat.zero_le _, [], rfl, .refl h, hend, by simpa using hoff, hoff.symm ▸ hin,
      fun _ => rfl⟩
  · have hlt : seqLt ba.winend sn = true := by
      unfold seqLt
      unfold low12 at *
      rw [decide_eq_true_iff]
      omega
    obtain ⟨d, hd⟩ : ∃ d, low12 ((sn : Int) - ba.winend) = d := ⟨_, rfl⟩
    have hde : d + ba.winsize = off + 1 := by
      unfold low12 at *
      omega
    obtain ⟨l, hup, hmoves⟩ := h.flush (d := d)
    have hsize : (BlockAck.flush (if ba.winsize < d then ba.winsize else d) ba).2.winsize
        = ba.winsize := (flush_spec h.head (by split <;> omega)).2.winsize
    obtain ⟨up, ba₁, hflush⟩ : ∃ up ba₁,
      BlockAck.flush (if ba.winsize < d then ba.winsize else d) ba = (up, ba₁) := ⟨_, _, rfl⟩
    rw [hflush] at hup hmoves hsize
    have hroom : BlockAck.makeRoom ba sn =
        (up, { ba₁ with winend := sn, winstart := low12 ((sn : Int) - ba.winsize + 1) }) := by
      simp only [BlockAck.makeRoom, if_pos hlt, hd, hflush]
      rw [show ba₁.winsize = ba.winsize from hsize]
    have hback : low12 ((sn : Int) - low12 ((sn : Int) - ba.winsize + 1)) + 1 = ba.winsize := by
      unfold low12 at *
      omega
    rw [hroom]
    refine ⟨d, by omega, l, hup, hmoves _ rfl rfl rfl ?_, ?_, ?_, ?_, fun hlt => absurd hlt hin⟩
    · show low12 ((sn : Int) - ba.winsize + 1) = _
      unfold low12 at *
      omega
    · show sn = low12 (low12 ((sn : Int) - ba.winsize + 1) + ba₁.winsize - 1)
      rw [show ba₁.winsize = ba.winsize from hsize]
      unfold low12 at *
      omega
    · show low12 ((sn : Int) - low12 ((sn : Int) - ba.winsize + 1)) + d = off
      omega
    · show low12 ((sn : Int) - low12 ((sn : Int) - ba.winsize + 1)) < ba.winsize
      omega

theorem Window.put {d : Nat} (h : Window W ba) (hd : d < ba.winsize) {f : Slot α}
    (hf : f.m.sn = (W + d) % 4096) :
    Window W (ba.put ((ba.head + d) % baMaxWinsz) (some f)) where
  head := h.head
  pos := h.pos
  le := h.le
  start := h.start
  slots := by
    intro i hi f' hf'
    have hput := RingBuf.update_slot ba.buf (f := ba.head) hi (hd.trans_le h.le) (some f)
    replace hf' := hput.symm.trans hf'
    split at hf'
    · rename_i hid
      obtain rfl := Option.some.inj hf'
      subst hid
      exact ⟨hd, hf⟩
    · exact h.slots i hi f' hf'

theorem slotAt_put {d : Nat} (hi : i < baMaxWinsz) (hd : d < baMaxWinsz) (f : Slot α) :
    slotAt (ba.put ((ba.head + d) % baMaxWinsz) (some f)) i
      = if i = d then some f else slotAt ba i :=
  RingBuf.update_slot ba.buf (f := ba.head) hi hd (some f)

theorem Moves.setWinend {l : List (Nat × Slot α)} (h : Moves W ba l W' ba') :
    Moves W ba l W' ba'.setWinend :=
  ⟨h.le, ⟨h.window.head, h.window.pos, h.window.le, h.window.start, h.window.slots⟩, h.winsize,
    h.up, h.kept⟩

/-- What a call does: the window moves on, by less than the space of the
sequence numbers, and ends at `ba_winend`. -/
structure Advances (W : Nat) (ba : RxBa α) (l : List (Nat × Slot α)) (W' : Nat) (r : Result α) :
    Prop where
  up : r.up = l.map Prod.snd
  moves : Moves W ba l W' r.ba
  near : W' < W + 4096
  ends : EndsRight r.ba

/-- The frame of number `n` is passed up or waits: this one, or the one
that was waiting under its number already. -/
def Taken (ba : RxBa α) (d n : Nat) (m : Mpdu α) (l : List (Nat × Slot α)) (W' : Nat)
    (ba' : RxBa α) : Prop :=
  ∃ f : Slot α, f.m.sn = m.sn ∧ (f.m = m ∨ slotAt ba d = some f)
    ∧ ((n, f) ∈ l ∨ Waits W' ba' n f)

theorem Window.sn {m : Mpdu α} (h : Window W ba) (d : Nat)
    (hd : low12 ((m.sn : Int) - ba.winstart) = d) : m.sn = (W + d) % 4096 := by
  have hlt : m.sn < 4096 := by
    rw [Mpdu.sn, Nat.shiftRight_eq_div_pow]
    omega
  have hstart := h.start
  unfold low12 at hd
  omega

theorem Window.storeMpdu {m : Mpdu α} {d : Nat} (h : Window W ba) (hend : EndsRight ba)
    (rxi : Rxinfo) (hd : low12 ((m.sn : Int) - ba.winstart) = d) (hlt : d < ba.winsize) :
    ∃ k ≤ baMaxWinsz, ∃ l, (storeMpdu ba m rxi).up = l.map Prod.snd
      ∧ Moves W ba l (W + k) (storeMpdu ba m rxi).ba ∧ EndsRight (storeMpdu ba m rxi).ba
      ∧ Taken ba d (W + d) m l (W + k) (storeMpdu ba m rxi).ba := by
  have hdmax := hlt.trans_le h.le
  have hsn := h.sn d hd
  rw [BlockAck.storeMpdu, hd]
  cases hslot : ba.buf ((ba.head + d) % baMaxWinsz) with
  | some f =>
    -- the slot is taken: a retransmission, and the frame is dropped
    have hf := h.slots d hdmax f hslot
    exact ⟨0, Nat.zero_le _, [], rfl, .refl h, hend, f, by rw [hf.2, hsn], .inr hslot,
      .inr ⟨d, hdmax, rfl, hslot⟩⟩
  | none =>
    obtain ⟨f, hfdef⟩ : ∃ f : Slot α,
      f = ⟨m, { rxi with flags := rxi.flags ||| rxiAmpduDone }⟩ := ⟨_, rfl⟩
    have hm : f.m = m := by rw [hfdef]
    obtain ⟨k, hk, l, hup, hmoves⟩ := (h.put hlt (hm ▸ hsn)).passUp
    have hwaits : Waits W (ba.put ((ba.head + d) % baMaxWinsz) (some f)) (W + d) f :=
      ⟨d, hdmax, rfl, by rw [slotAt_put hdmax hdmax, if_pos rfl]⟩
    simp only [← hfdef]
    refine ⟨k, hk, l, hup, ?_, rfl, f, hm ▸ rfl, .inl hm, hmoves.setWinend.kept _ _ hwaits⟩
    refine ⟨hmoves.le, hmoves.setWinend.window, hmoves.winsize, hmoves.up, ?_⟩
    rintro n g ⟨i, hi, hn, hg⟩
    refine hmoves.setWinend.kept n g ⟨i, hi, hn, ?_⟩
    rw [slotAt_put hi hdmax, if_neg, hg]
    rintro rfl
    exact absurd (hslot.symm.trans hg) (by simp)

/-- The one arrival that goes wrong: with a window of a single frame the
frame half the space ahead is neither before nor behind the window. -/
def Halfway (ba : RxBa α) (m : Mpdu α) : Prop :=
  ba.winsize = 1 ∧ low12 ((m.sn : Int) - ba.winstart) = 2048

theorem Window.inputBa {m : Mpdu α} (h : Window W ba) (hend : EndsRight ba) (rxi : Rxinfo)
    (hok : ¬ Halfway ba m) :
    ∃ l W', Advances W ba l W' (inputBa ba m rxi)
      ∧ ∀ d, low12 ((m.sn : Int) - ba.winstart) = d → d < ba.winsize →
        Taken ba d (W + d) m l W' (inputBa ba m rxi).ba := by
  obtain ⟨off, hoff⟩ : ∃ off, low12 ((m.sn : Int) - ba.winstart) = off := ⟨_, rfl⟩
  have hmax : baMaxWinsz = 128 := rfl
  have hle := h.le
  rw [BlockAck.inputBa]
  by_cases hlt : seqLt m.sn ba.winstart
  · rw [if_pos hlt]
    have hfar : 2048 < off := by
      rw [seqLt, hoff] at hlt
      exact of_decide_eq_true hlt
    exact ⟨[], W, ⟨rfl, .refl h, by omega, hend⟩, fun d hd hdw => absurd hd (by omega)⟩
  rw [if_neg hlt]
  have hhalf : off ≤ 2048 := by
    rw [seqLt, hoff, decide_eq_true_eq] at hlt
    omega
  have hsn : m.sn < 4096 := (h.sn off hoff).trans_lt (Nat.mod_lt _ (by decide))
  obtain ⟨e, he, l, hup, hmoves, hend', hsum, hin, hsame⟩ :=
    h.makeRoom hend hsn hoff hhalf fun hw ho => hok ⟨hw, hoff.trans ho⟩
  obtain ⟨up, ba₁, hroom⟩ : ∃ up ba₁, BlockAck.makeRoom ba m.sn = (up, ba₁) := ⟨_, _, rfl⟩
  rw [hroom] at hup hmoves hend' hsum hin hsame
  replace hsum : low12 ((m.sn : Int) - ba₁.winstart) + e = off := hsum
  obtain ⟨k, hk, l', hup', hmoves', hend'', htaken⟩ :=
    hmoves.window.storeMpdu hend' rxi rfl (hmoves.winsize ▸ hin)
  simp only [hroom]
  refine ⟨l ++ l', W + e + k, ⟨?_, hmoves.trans hmoves', by omega, hend''⟩, ?_⟩
  · rw [List.map_append, ← hup, ← hup']
  · intro d hd hdw
    -- a frame in the window finds the window where it was
    obtain rfl : ba₁ = ba := hsame (by omega)
    obtain ⟨f, hfsn, hf, hfup⟩ := htaken
    have hnum : W + d = W + e + low12 ((m.sn : Int) - ba₁.winstart) := by omega
    rw [hd] at hf
    refine ⟨f, hfsn, hf, ?_⟩
    rw [hnum]
    exact hfup.imp (List.mem_append_right _) id

theorem Window.baMoveWindow {ssn : Nat} (h : Window W ba) (hlt : seqLt ba.winstart ssn = true)
    (hssn : ssn < 4096) : ∃ l W', Advances W ba l W' (baMoveWindow ba ssn) := by
  obtain ⟨d, hd⟩ : ∃ d, low12 ((ssn : Int) - ba.winstart) = d := ⟨_, rfl⟩
  have hmax : baMaxWinsz = 128 := rfl
  have hstart := h.start
  have hnear : d < 2048 := by
    rw [seqLt, decide_eq_true_eq] at hlt
    unfold low12 at *
    omega
  have hssn' : ssn = (W + d) % 4096 := by
    unfold low12 at hd
    omega
  obtain ⟨l, hup, hmoves⟩ := h.flush (d := d)
  rw [BlockAck.baMoveWindow, hd]
  obtain ⟨up, ba₁, hflush⟩ : ∃ up ba₁,
    BlockAck.flush (if ba.winsize < d then ba.winsize else d) ba = (up, ba₁) := ⟨_, _, rfl⟩
  rw [hflush] at hup hmoves
  simp only [hflush]
  have hmoved := hmoves { ba₁ with winstart := ssn } rfl rfl rfl hssn'
  obtain ⟨k, hk, l', hup', hmoves'⟩ := hmoved.window.passUp
  refine ⟨l ++ l', W + d + k, ?_, (hmoved.trans hmoves').setWinend, by omega, rfl⟩
  rw [List.map_append, ← hup, ← hup']

/-! ## Runs -/

inductive Call (α : Type*) where
  | input (m : Mpdu α) (rxi : Rxinfo)
  | bar (ssn : BitVec 12)

/-- An agreement in use. `base` is `ba_winstart` without its wraps, and the
frames in `up` have been passed up, oldest first, each under its number. -/
structure St (α : Type*) where
  ba : RxBa α
  base : Nat
  up : List (Nat × Slot α)
  ierrors : Nat

/-- The number of a frame: its distance from `ba_winstart`, on top of the
`base`. -/
def St.number (s : St α) (m : Mpdu α) : Nat := s.base + low12 ((m.sn : Int) - s.ba.winstart)

def St.after (s : St α) (r : Result α) : St α :=
  { ba := r.ba
    base := s.base + low12 ((r.ba.winstart : Int) - s.ba.winstart)
    up := s.up ++ r.up.map fun f => (s.number f.m, f)
    ierrors := s.ierrors + r.ierrors }

def step (s : St α) : Call α → St α
  | .input m rxi => s.after (inputBa s.ba m rxi)
  | .bar ssn => s.after (barTid s.ba ssn.toNat)

def run (s : St α) (calls : List (Call α)) : St α := calls.foldl step s

/-- A new agreement. -/
def start (bufsz : Nat) (ssn : BitVec 12) : St α :=
  ⟨recvAddbaReq bufsz ssn.toNat, ssn.toNat, [], 0⟩

/-- No call of the run is the arrival that goes wrong. -/
def NeverHalfway (s : St α) : List (Call α) → Prop
  | [] => True
  | .input m rxi :: calls => ¬ Halfway s.ba m ∧ NeverHalfway (step s (.input m rxi)) calls
  | .bar ssn :: calls => NeverHalfway (step s (.bar ssn)) calls

/-- The invariant of the runs. -/
structure Reorders (s : St α) : Prop where
  window : Window s.base s.ba
  ends : EndsRight s.ba
  up : ∃ lo, Ascending lo s.base s.up

theorem Reorders.start (bufsz : Nat) (ssn : BitVec 12) :
    Reorders (BlockAck.start bufsz ssn : St α) where
  window :=
    { head := Nat.zero_lt_succ 127
      pos := by
        show 0 < if bufsz = 0 ∨ baMaxWinsz < bufsz then baMaxWinsz else bufsz
        have hmax : baMaxWinsz = 128 := rfl
        split <;> omega
      le := by
        show (if bufsz = 0 ∨ baMaxWinsz < bufsz then baMaxWinsz else bufsz) ≤ baMaxWinsz
        split <;> omega
      start := (Nat.mod_eq_of_lt ssn.isLt).symm
      slots := nofun }
  ends := rfl
  up := ⟨0, .nil 0 _⟩

/-- The numbers a call gives are those of the window. -/
theorem Reorders.after {s : St α} {r : Result α} {l : List (Nat × Slot α)} (h : Reorders s)
    (hadv : Advances s.base s.ba l W' r) :
    (s.after r).base = W' ∧ (s.after r).up = s.up ++ l ∧ Reorders (s.after r) := by
  have hle := hadv.moves.le
  have hnear := hadv.near
  have hbase : s.base + low12 ((r.ba.winstart : Int) - s.ba.winstart) = W' := by
    rw [hadv.moves.window.start, h.window.start]
    unfold low12
    omega
  have hup : r.up.map (fun f => (s.number f.m, f)) = l := by
    rw [hadv.up, List.map_map]
    refine (List.map_congr_left fun p hp => ?_).trans (List.map_id l)
    obtain ⟨hlo, hhi⟩ := hadv.moves.up.bounds p hp
    have hsn := hadv.moves.up.sn p hp
    refine Prod.ext ?_ rfl
    show s.base + low12 ((p.2.m.sn : Int) - s.ba.winstart) = p.1
    rw [hsn, h.window.start]
    unfold low12
    omega
  have hbase' : (s.after r).base = W' := hbase
  have hup' : (s.after r).up = s.up ++ l := congrArg (s.up ++ ·) hup
  refine ⟨hbase', hup', ?_, hadv.ends, ?_⟩
  · rw [hbase']
    exact hadv.moves.window
  · obtain ⟨lo, hlo⟩ := h.up
    rw [hbase', hup']
    refine ⟨min lo s.base, ?_⟩
    have hlo' : Ascending (min lo s.base) s.base s.up :=
      ⟨hlo.sorted, fun p hp => ⟨(Nat.min_le_left _ _).trans (hlo.bounds p hp).1,
        (hlo.bounds p hp).2⟩, hlo.sn⟩
    exact hlo'.append hadv.moves.up (Nat.min_le_right _ _) hle

/-- A frame of number `n` has been passed up or waits. -/
def St.Has (s : St α) (n : Nat) (f : Slot α) : Prop := (n, f) ∈ s.up ∨ Waits s.base s.ba n f

theorem Reorders.has_after {s : St α} {r : Result α} {l : List (Nat × Slot α)} (h : Reorders s)
    (hadv : Advances s.base s.ba l W' r) {f : Slot α} (hf : s.Has n f) : (s.after r).Has n f := by
  obtain ⟨hbase, hup, -⟩ := h.after hadv
  rw [St.Has, hbase, hup]
  rcases hf with hf | hf
  · exact .inl (List.mem_append_left _ hf)
  · exact (hadv.moves.kept n f hf).imp (List.mem_append_right _) id

theorem Reorders.advances {s : St α} (h : Reorders s) (call : Call α)
    (hok : ∀ m rxi, call = .input m rxi → ¬ Halfway s.ba m) :
    ∃ r l W', step s call = s.after r ∧ Advances s.base s.ba l W' r := by
  cases call with
  | input m rxi =>
    obtain ⟨l, W', hadv, -⟩ := h.window.inputBa h.ends rxi (hok m rxi rfl)
    exact ⟨_, l, W', rfl, hadv⟩
  | bar ssn =>
    refine ⟨barTid s.ba ssn.toNat, ?_⟩
    rw [barTid]
    by_cases hlt : seqLt s.ba.winstart ssn.toNat = true
    · obtain ⟨l, W', hadv⟩ := h.window.baMoveWindow hlt ssn.isLt
      rw [if_pos hlt]
      exact ⟨l, W', by rw [step, barTid, if_pos hlt], hadv⟩
    · rw [if_neg hlt]
      exact ⟨[], s.base, by rw [step, barTid, if_neg hlt], rfl, .refl h.window, by omega, h.ends⟩

/-- Along a run, no frame that is passed up or waits gets lost. -/
theorem Reorders.run {s : St α} (calls : List (Call α)) (h : Reorders s)
    (hok : NeverHalfway s calls) :
    Reorders (BlockAck.run s calls)
      ∧ ∀ n f, s.Has n f → (BlockAck.run s calls).Has n f := by
  induction calls generalizing s with
  | nil => exact ⟨h, fun _ _ hf => hf⟩
  | cons call calls ih =>
    have hok' : (∀ m rxi, call = .input m rxi → ¬ Halfway s.ba m)
        ∧ NeverHalfway (step s call) calls := by
      cases call with
      | input m rxi =>
        refine ⟨fun m' rxi' he => ?_, hok.2⟩
        obtain ⟨rfl, rfl⟩ := Call.input.inj he
        exact hok.1
      | bar ssn => exact ⟨nofun, hok⟩
    obtain ⟨r, l, W', hstep, hadv⟩ := h.advances call hok'.1
    have hnext : Reorders (step s call) := hstep ▸ (h.after hadv).2.2
    obtain ⟨hrun, hhas⟩ := ih hnext hok'.2
    exact ⟨hrun, fun n f hf => hhas n f (hstep ▸ h.has_after hadv hf)⟩

theorem NeverHalfway.split {s : St α} {pre post : List (Call α)}
    (h : NeverHalfway s (pre ++ post)) :
    NeverHalfway s pre ∧ NeverHalfway (BlockAck.run s pre) post := by
  induction pre generalizing s with
  | nil => exact ⟨trivial, h⟩
  | cons call pre ih =>
    cases call with
    | input m rxi => exact ⟨⟨h.1, (ih h.2).1⟩, (ih h.2).2⟩
    | bar ssn => exact ih h

/-- In a run without a halfway arrival the buffer is the window it is
meant to be, frames are passed up in the order of their numbers and at most
once each, and a frame that arrives in the window is passed up or waits
(unless the frame of its number waits already: then that one does). -/
theorem run_reorders (bufsz : Nat) (ssn : BitVec 12) (calls : List (Call α))
    (hok : NeverHalfway (start bufsz ssn) calls) :
    ((run (start bufsz ssn) calls).ba.winend =
        low12 ((run (start bufsz ssn) calls).ba.winstart
          + (run (start bufsz ssn) calls).ba.winsize - 1))
    ∧ (∀ i < baMaxWinsz, ∀ f, slotAt (run (start bufsz ssn) calls).ba i = some f →
        i < (run (start bufsz ssn) calls).ba.winsize
        ∧ f.m.sn = low12 ((run (start bufsz ssn) calls).ba.winstart + i))
    ∧ (run (start bufsz ssn) calls).up.Pairwise (fun p q => p.1 < q.1)
    ∧ (∀ p ∈ (run (start bufsz ssn) calls).up, p.2.m.sn = p.1 % 4096)
    ∧ (∀ pre m rxi post, calls = pre ++ .input m rxi :: post →
        ∀ d, low12 ((m.sn : Int) - (run (start bufsz ssn) pre).ba.winstart) = d →
          d < (run (start bufsz ssn) pre).ba.winsize →
          ∃ f, f.m.sn = m.sn
            ∧ (f.m = m ∨ slotAt (run (start bufsz ssn) pre).ba d = some f)
            ∧ (run (start bufsz ssn) calls).Has ((run (start bufsz ssn) pre).number m) f) := by
  obtain ⟨hrun, -⟩ := Reorders.run calls (.start bufsz ssn) hok
  obtain ⟨lo, hup⟩ := hrun.up
  refine ⟨hrun.ends, fun i hi f hf => ?_, hup.sorted, hup.sn, ?_⟩
  · obtain ⟨hlt, hsn⟩ := hrun.window.slots i hi f hf
    refine ⟨hlt, ?_⟩
    rw [hsn, hrun.window.start]
    unfold low12
    omega
  · rintro pre m rxi post rfl d hd hdw
    obtain ⟨hpre, hrest⟩ := hok.split
    obtain ⟨hmid, -⟩ := Reorders.run pre (.start bufsz ssn) hpre
    obtain ⟨l, W', hadv, htaken⟩ := hmid.window.inputBa hmid.ends rxi hrest.1
    obtain ⟨f, hfsn, hf, hfup⟩ := htaken d hd hdw
    obtain ⟨hbase, hup', hnext⟩ := hmid.after hadv
    obtain ⟨-, hhas⟩ := Reorders.run post hnext hrest.2
    refine ⟨f, hfsn, hf, ?_⟩
    rw [run, List.foldl_append, List.foldl_cons]
    refine hhas _ f ?_
    rw [St.number, hd, St.Has, hbase, hup']
    exact hfup.imp (List.mem_append_right _) id

/-- A data frame without contents and its meta-data. -/
def bareInput (sn : BitVec 12) : Call Unit :=
  .input ⟨sn.setWidth 16 <<< 4, ()⟩ ⟨0, 0, 0⟩

/-- A window of four that starts two numbers before the wrap: the second
frame waits for the first, and the run is one without a halfway arrival. -/
theorem run_reorders_over_the_wrap :
    ((run (start 4 4094) [bareInput 4095, bareInput 4094, .bar 3, bareInput 3]).up.map Prod.fst
      = [4094, 4095, 4099])
    ∧ (run (start 4 4094) [bareInput 4095, bareInput 4094, .bar 3, bareInput 3]).up.Pairwise
      (fun p q => p.1 < q.1) :=
  ⟨by decide +kernel,
    (run_reorders 4 4094 [bareInput 4095, bareInput 4094, .bar 3, bareInput 3]
      ⟨fun h => absurd h.1 (by decide +kernel), fun h => absurd h.1 (by decide +kernel),
        fun h => absurd h.1 (by decide +kernel), trivial⟩).2.2.1⟩

/-- With a window of one frame at 0, frame 2048 is taken to be in the
window and passed up; frame 1 follows it, and frame 2048 is passed up a
second time. -/
theorem halfway_frame_out_of_order :
    ((run (start 1 0) [bareInput 2048, bareInput 1, bareInput 2048]).up.map Prod.fst
      = [2048, 1, 2048])
    ∧ ¬ (run (start 1 0) [bareInput 2048, bareInput 1, bareInput 2048]).up.Pairwise
      (fun p q => p.1 < q.1) := by
  decide +kernel

end Obsd.BlockAck
