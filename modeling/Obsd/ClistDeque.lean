import Obsd.Clist

/-!
# Clists as bounded deques

What a clist is for: a deque of at most `c_cn` characters, which forgets
the quote flags when there is no array for them. `abs` is the deque that a
clist holds, and each function of `tty_subr.c` has a lemma here that says
what it does to it. `q_to_b` needs the quote bits that it clears to be in
the array, and `catq` must not swap them away.
-/

namespace Obsd.Tty

open RingBuf (window)

/-! ## The deque -/

structure Deque where
  cap : Nat
  quote : Bool
  items : List Chr
deriving DecidableEq, Repr

namespace Deque

/-- Without quote bits the flag is lost. -/
def stored (d : Deque) (c : Chr) : Chr := (c.1, c.2 && d.quote)

def room (d : Deque) : Nat := d.cap - d.items.length

def putc (c : Chr) (d : Deque) : Bool × Deque :=
  if d.items.length = d.cap then (false, d) else (true, { d with items := d.items ++ [d.stored c] })

def getc (d : Deque) : Option Chr × Deque := (d.items.head?, { d with items := d.items.tail })

def unputc (d : Deque) : Option Chr × Deque := (d.items.getLast?, { d with items := d.items.dropLast })

def bToQ (p : List UInt8) (d : Deque) : Nat × Deque :=
  (p.length - d.room, { d with items := d.items ++ (p.take d.room).map fun c => (c, false) })

def qToB (d : Deque) (count : Nat) : List UInt8 × Deque :=
  ((d.items.take count).map Prod.fst, { d with items := d.items.drop count })

def ndflush (d : Deque) (count : Nat) : Deque := { d with items := d.items.drop count }

/-- What does not fit is lost. -/
def catq (src dst : Deque) : Deque × Deque :=
  ({ src with items := [] },
    { dst with items := dst.items ++ (src.items.take dst.room).map dst.stored })

end Deque

/-! ## What a clist holds -/

/-- A quote bit, if there are any. -/
def quoteAt (cq : Option (Nat → BitVec 8)) (i : Nat) : Bool :=
  match cq with
  | none => false
  | some map => Bitmap.bit map i

def slot (q : Clist) (i : Nat) : Chr := (q.cs i, quoteAt q.cq i)

def contents (q : Clist) : List Chr :=
  match q.cf with
  | none => []
  | some f => window (slot q) q.cn f q.cc

def abs (q : Clist) : Deque := { cap := q.cn, quote := q.cq.isSome, items := contents q }

/-- The pointers are where the count says. -/
structure Placed (q : Clist) (f : Nat) : Prop where
  lt : f < q.cn
  le : q.cc ≤ q.cn
  cf : q.cf = some f
  cl : q.cl = some ((f + q.cc) % q.cn)

/-- An empty list has null pointers, any other has them placed. -/
def Wf (q : Clist) : Prop :=
  (q.cc = 0 ∧ q.cf = none ∧ q.cl = none) ∨ (q.cc ≠ 0 ∧ ∃ f, Placed q f)

variable {q : Clist} {f i : Nat}

theorem wf_clalloc (size : Nat) (quot : Bool) : Wf (clalloc size quot) := .inl ⟨rfl, rfl, rfl⟩

theorem Placed.contents_eq (h : Placed q f) : contents q = window (slot q) q.cn f q.cc := by
  rw [contents, h.cf]

theorem Placed.length (h : Placed q f) : (contents q).length = q.cc := by
  rw [h.contents_eq, RingBuf.length_window]

theorem Wf.length (h : Wf q) : (contents q).length = q.cc := by
  obtain ⟨hcc, hcf, -⟩ | ⟨-, f, hp⟩ := h
  · rw [contents, hcf, hcc, List.length_nil]
  · exact hp.length

theorem Wf.le (h : Wf q) : q.cc ≤ q.cn := by
  obtain ⟨hcc, -⟩ | ⟨-, f, hp⟩ := h
  · omega
  · exact hp.le

theorem Wf.contents_nil (h : Wf q) (hcc : q.cc = 0) : contents q = [] :=
  List.eq_nil_of_length_eq_zero (h.length.trans hcc)

theorem Wf.placed (h : Wf q) (hcc : q.cc ≠ 0) : ∃ f, Placed q f := by
  obtain ⟨h0, -⟩ | ⟨-, hp⟩ := h
  · exact absurd h0 hcc
  · exact hp

/-- Settling an empty list changes nothing it holds. -/
theorem Placed.settle (h : Placed q f) : Wf q.settle ∧ abs q.settle = abs q := by
  unfold Clist.settle
  by_cases hcc : q.cc = 0
  · rw [if_pos hcc]
    refine ⟨.inl ⟨hcc, rfl, rfl⟩, ?_⟩
    have hnil : contents q = [] := List.eq_nil_of_length_eq_zero (h.length.trans hcc)
    rw [abs, abs, hnil]
    rfl
  · rw [if_neg hcc]
    exact ⟨.inr ⟨hcc, f, h⟩, rfl⟩

theorem Wf.start (h : Wf q) (hroom : q.cc ≠ q.cn) : (∃ f, Placed q.start f) ∧ abs q.start = abs q := by
  have hle := h.le
  unfold Clist.start
  by_cases hcc : q.cc = 0
  · rw [if_pos hcc]
    refine ⟨⟨0, ?_, hle, rfl, ?_⟩, ?_⟩
    · dsimp only
      omega
    · rw [hcc, Nat.add_zero, Nat.zero_mod]
    · have hnil := h.contents_nil hcc
      rw [abs, abs, hnil, contents]
      simp only [hcc, RingBuf.window_zero]
  · rw [if_neg hcc]
    exact ⟨h.placed hcc, rfl⟩

theorem start_cc : q.start.cc = q.cc := by
  unfold Clist.start
  split <;> rfl

theorem start_cn : q.start.cn = q.cn := by
  unfold Clist.start
  split <;> rfl

/-! ### Bits and bytes in range -/

theorem lt_qmem (h : i < q.cn) : i / 8 < qmem q.cn := by
  unfold qmem
  omega

theorem isset_eq (h : i < q.cn) : isset q i = some (quoteAt q.cq i) := by
  unfold isset quoteAt
  cases q.cq with
  | none => rfl
  | some map => exact if_pos (lt_qmem h)

theorem clrbit_spec (h : i < q.cn) : ∃ cq, clrbit q i = some { q with cq := cq }
    ∧ cq.isSome = q.cq.isSome ∧ ∀ j, quoteAt cq j = (quoteAt q.cq j && !decide (j = i)) := by
  obtain ⟨cc, cn, cf, cl, cs, cq⟩ := q
  cases cq with
  | none => exact ⟨none, rfl, rfl, fun j => rfl⟩
  | some map => exact ⟨_, if_pos (lt_qmem h), rfl, fun j => Bitmap.bit_clear (by decide) map i j⟩

theorem setbit_spec (h : i < q.cn) : ∃ cq, setbit q i = some { q with cq := cq }
    ∧ cq.isSome = q.cq.isSome ∧ ∀ j, quoteAt cq j = (quoteAt q.cq j || (decide (j = i) && q.cq.isSome)) := by
  obtain ⟨cc, cn, cf, cl, cs, cq⟩ := q
  cases cq with
  | none => exact ⟨none, rfl, rfl, fun j => by simp [quoteAt]⟩
  | some map =>
    refine ⟨_, if_pos (lt_qmem h), rfl, fun j => ?_⟩
    simp only [quoteAt, Bitmap.bit_set (by decide : 0 < 8), Option.isSome_some, Bool.and_true]

theorem clrbits_spec {len : Nat} (hlen : 0 < len)
    (h : q.cq.isSome = true → (i + len - 1) / 8 < qmem q.cn) :
    ∃ cq, clrbits q i len = some { q with cq := cq } ∧ cq.isSome = q.cq.isSome
      ∧ ∀ j, quoteAt cq j = (quoteAt q.cq j && !decide (i ≤ j ∧ j < i + len)) := by
  obtain ⟨cc, cn, cf, cl, cs, cq⟩ := q
  cases cq with
  | none => exact ⟨none, rfl, rfl, fun j => rfl⟩
  | some map =>
    obtain ⟨map', hmap', hbit⟩ := clrbitsBytes_spec map hlen (h rfl)
    refine ⟨some map', ?_, rfl, hbit⟩
    exact congrArg (Option.map _) hmap'

/-! ## One character at a time -/

theorem Placed.pos (h : Placed q f) : 0 < q.cn := Nat.zero_lt_of_lt h.lt

theorem Placed.cl_lt (h : Placed q f) : (f + q.cc) % q.cn < q.cn := Nat.mod_lt _ h.pos

/-- Going on from the first place, it does not come up again. -/
theorem slot_ne_first {n k : Nat} (hf : f < n) (h0 : 0 < k) (hk : k < n) : (f + k) % n ≠ f := by
  rw [RingBuf.slot_eq hf hk.le]
  split <;> omega

/-- The place after the last comes up among the others only if the list is full, and then it
is the first. -/
theorem slot_ne_free {n k c : Nat} (hf : f < n) (hc : c ≤ n) (h0 : 0 < k) (hk : k < c) :
    (f + k) % n ≠ (f + c) % n := by
  rw [RingBuf.slot_eq hf hc, RingBuf.slot_eq hf (by omega)]
  split <;> split <;> omega

theorem getc_spec (h : Wf q) : ∃ r q', getc q = some (r, q') ∧ Wf q' ∧ (abs q).getc = (r, abs q') := by
  by_cases hcc : q.cc = 0
  · refine ⟨none, q, if_pos hcc, h, ?_⟩
    have hnil := h.contents_nil hcc
    simp [Deque.getc, abs, hnil]
  · obtain ⟨f, hp⟩ := h.placed hcc
    have lt := hp.lt
    have le := hp.le
    have cf := hp.cf
    have cl := hp.cl
    obtain ⟨q₁, hq₁⟩ : ∃ q₁ : Clist, q₁ = { q with cs := fun j => if j = f then 0 else q.cs j } := ⟨_, rfl⟩
    have hset : setByte q f 0 = some q₁ := by rw [setByte, if_pos lt, hq₁]
    obtain ⟨cq, hclr, hsome, hquote⟩ := clrbit_spec (q := q₁) (i := (f + q.cc) % q.cn)
      (by rw [hq₁]; exact Nat.mod_lt _ (Nat.zero_lt_of_lt lt))
    obtain ⟨q₂, hq₂⟩ : ∃ q₂ : Clist, q₂ = { q₁ with
      cq := cq, cf := some (q₁.after (f + 1)), cc := q₁.cc - 1 } := ⟨_, rfl⟩
    have hget : getc q = some (some (slot q f), q₂.settle) := by
      rw [getc, if_neg hcc, cf, cl]
      simp only [Option.bind_eq_bind, Option.bind_some, byteAt, if_pos lt, hset]
      rw [isset_eq (by rw [hq₁]; exact lt), Option.bind_some, hclr, Option.bind_some, hq₂, hq₁]
      rfl
    subst hq₁
    have hafter : Clist.after { q with cs := fun j => if j = f then 0 else q.cs j } (f + 1)
        = (f + 1) % q.cn := RingBuf.wrap_eq_mod lt
    have hplaced : Placed q₂ ((f + 1) % q.cn) := by
      subst hq₂
      refine ⟨Nat.mod_lt _ (Nat.zero_lt_of_lt lt), ?_, by rw [← hafter], ?_⟩
      · dsimp only
        omega
      · dsimp only
        rw [cl, Nat.mod_add_mod]
        congr 2
        omega
    obtain ⟨hwf, habs⟩ := hplaced.settle
    have hcontents : contents q = slot q f :: contents q₂ := by
      rw [hp.contents_eq, hplaced.contents_eq, RingBuf.window_cons _ lt hcc]
      subst hq₂
      congr 1
      refine RingBuf.window_congr fun i hi => ?_
      -- neither the place read nor the one after the last is among the others
      have hf : ((f + 1) % q.cn + i) % q.cn ≠ f := by
        rw [Nat.mod_add_mod, Nat.add_assoc]
        exact slot_ne_first lt (by omega) (by omega)
      have hl : ((f + 1) % q.cn + i) % q.cn ≠ (f + q.cc) % q.cn := by
        rw [Nat.mod_add_mod, Nat.add_assoc]
        exact slot_ne_free lt le (by omega) (by omega)
      simp only [slot, hquote, if_neg hf, decide_eq_false hl, Bool.not_false, Bool.and_true]
    refine ⟨_, _, hget, hwf, ?_⟩
    rw [habs, Deque.getc]
    simp only [abs, hcontents, List.head?_cons, List.tail_cons]
    rw [hq₂]
    simp only [hsome]

theorem markbit_spec (quote : Bool) (h : i < q.cn) :
    ∃ cq, markbit q i quote = some { q with cq := cq } ∧ cq.isSome = q.cq.isSome
      ∧ ∀ j, quoteAt cq j = if j = i then quote && q.cq.isSome else quoteAt q.cq j := by
  cases quote with
  | true =>
    obtain ⟨cq, hset, hsome, hquote⟩ := setbit_spec h
    refine ⟨cq, hset, hsome, fun j => ?_⟩
    rw [hquote]
    by_cases hj : j = i
    · rw [if_pos hj, decide_eq_true hj]
      cases hq : q.cq with
      | none => rfl
      | some map => simp
    · simp [hj]
  | false =>
    obtain ⟨cq, hclr, hsome, hquote⟩ := clrbit_spec h
    refine ⟨cq, hclr, hsome, fun j => ?_⟩
    rw [hquote]
    by_cases hj : j = i <;> simp [hj]

theorem putc_spec (c : Chr) (h : Wf q) :
    ∃ r q', putc c q = some (r, q') ∧ Wf q' ∧ (abs q).putc c = (r, abs q') := by
  by_cases hfull : q.cc = q.cn
  · refine ⟨false, q, if_pos hfull, h, if_pos ?_⟩
    exact h.length.trans hfull
  · obtain ⟨⟨f, hp⟩, habs⟩ := h.start hfull
    obtain ⟨q₀, hq₀⟩ : ∃ q₀, q₀ = q.start := ⟨_, rfl⟩
    rw [← hq₀] at hp habs
    have hroom : q₀.cc ≠ q₀.cn := by rwa [hq₀, start_cc, start_cn]
    have lt := hp.lt
    have le := hp.le
    obtain ⟨l, hl⟩ : ∃ l, l = (f + q₀.cc) % q₀.cn := ⟨_, rfl⟩
    have hlt : l < q₀.cn := hl ▸ hp.cl_lt
    obtain ⟨q₁, hq₁⟩ : ∃ q₁ : Clist, q₁ = { q₀ with cs := fun j => if j = l then c.1 else q₀.cs j } := ⟨_, rfl⟩
    have hset : setByte q₀ l c.1 = some q₁ := by rw [setByte, if_pos hlt, hq₁]
    obtain ⟨cq, hmark, hsome, hquote⟩ := markbit_spec (q := q₁) (i := l) c.2 (by rw [hq₁]; exact hlt)
    obtain ⟨q₂, hq₂⟩ : ∃ q₂ : Clist, q₂ = { q₁ with
      cq := cq, cc := q₁.cc + 1, cl := some (q₁.after (l + 1)) } := ⟨_, rfl⟩
    have hput : putc c q = some (true, q₂) := by
      rw [putc, if_neg hfull]
      simp only [← hq₀, hp.cl, ← hl, Option.bind_eq_bind, Option.bind_some, hset, hmark, hq₂]
      rfl
    subst hq₁
    have hafter : Clist.after { q₀ with cs := fun j => if j = l then c.1 else q₀.cs j } (l + 1)
        = (f + (q₀.cc + 1)) % q₀.cn := by
      refine (RingBuf.wrap_eq_mod (f := l) (c := 1) hlt).trans ?_
      rw [hl, Nat.mod_add_mod, Nat.add_assoc]
    have hplaced : Placed q₂ f := by
      subst hq₂
      refine ⟨lt, ?_, hp.cf, ?_⟩
      · dsimp only
        omega
      · rw [hafter]
    have hcontents : contents q₂ = contents q₀ ++ [(c.1, c.2 && q₀.cq.isSome)] := by
      rw [hp.contents_eq, hplaced.contents_eq]
      subst hq₂
      dsimp only
      rw [RingBuf.window_snoc _ hp.pos, ← hl]
      congr 1
      · refine RingBuf.window_congr fun i hi => ?_
        have hne : (f + i) % q₀.cn ≠ l := by
          rw [hl, RingBuf.slot_eq lt le, RingBuf.slot_eq lt (by omega)]
          split <;> split <;> omega
        simp only [slot, hquote, if_neg hne]
      · simp only [slot, hquote, if_pos]
    refine ⟨true, q₂, hput, .inr ⟨by rw [hq₂]; exact Nat.succ_ne_zero _, f, hplaced⟩, ?_⟩
    rw [← habs, Deque.putc, if_neg]
    · simp only [abs, Deque.stored, hcontents]
      rw [hq₂]
      simp only [hsome]
    · intro hlen
      exact hroom (hp.length.symm.trans hlen)

theorem unputc_spec (h : Wf q) :
    ∃ r q', unputc q = some (r, q') ∧ Wf q' ∧ (abs q).unputc = (r, abs q') := by
  by_cases hcc : q.cc = 0
  · refine ⟨none, q, if_pos hcc, h, ?_⟩
    have hnil := h.contents_nil hcc
    simp [Deque.unputc, abs, hnil]
  · obtain ⟨f, hp⟩ := h.placed hcc
    have lt := hp.lt
    have le := hp.le
    have hback : (if (f + q.cc) % q.cn = 0 then q.cn - 1 else (f + q.cc) % q.cn - 1)
        = (f + (q.cc - 1)) % q.cn := by
      rw [RingBuf.slot_eq lt le, RingBuf.slot_eq lt (by omega)]
      split <;> split <;> split <;> omega
    obtain ⟨l, hl⟩ : ∃ l, l = (f + (q.cc - 1)) % q.cn := ⟨_, rfl⟩
    have hlt : l < q.cn := hl ▸ Nat.mod_lt _ hp.pos
    obtain ⟨q₁, hq₁⟩ : ∃ q₁ : Clist, q₁ = { q with cl := some l, cc := q.cc - 1 } := ⟨_, rfl⟩
    have hunput : unputc q = some (some (slot q l), q₁.settle) := by
      rw [unputc, if_neg hcc, hp.cl]
      simp only [Option.bind_eq_bind, Option.bind_some, hback, ← hl, byteAt, if_pos hlt, isset_eq hlt, hq₁]
      rfl
    have hplaced : Placed q₁ f := by
      subst hq₁
      exact ⟨lt, by dsimp only; omega, hp.cf, by rw [hl]⟩
    have hcontents : contents q = contents q₁ ++ [slot q l] := by
      have hsplit := RingBuf.window_snoc (slot q) hp.pos f (q.cc - 1)
      rw [Nat.sub_add_cancel (Nat.pos_of_ne_zero hcc), ← hl] at hsplit
      rw [hp.contents_eq, hplaced.contents_eq, hsplit, hq₁]
      rfl
    obtain ⟨hwf, habs⟩ := hplaced.settle
    refine ⟨_, _, hunput, hwf, ?_⟩
    rw [habs, Deque.unputc]
    simp only [abs, hcontents, List.getLast?_append, List.getLast?_singleton, Option.some_or, List.dropLast_concat]
    rw [hq₁]

/-! ## Many at a time -/

section Bulk

variable {k count : Nat}

theorem Placed.stretch (hp : Placed q f) (hcc : q.cc ≠ 0) :
    stretch q f ((f + q.cc) % q.cn) = min q.cc (q.cn - f) := by
  have lt := hp.lt
  have le := hp.le
  unfold Tty.stretch
  rw [RingBuf.slot_eq lt le]
  split <;> split <;> omega

/-- The list after `k` characters were taken from its front. -/
theorem Placed.advance (q' : Clist) (hp : Placed q f) (hk : k ≤ q.cc) (hkn : f + k ≤ q.cn)
    (hcn : q'.cn = q.cn) (hcc : q'.cc = q.cc - k) (hcf : q'.cf = some (q.after (f + k)))
    (hcl : q'.cl = q.cl)
    (hslot : ∀ i < q.cc - k, slot q' ((f + (k + i)) % q.cn) = slot q ((f + (k + i)) % q.cn)) :
    Placed q' ((f + k) % q.cn) ∧ contents q' = (contents q).drop k := by
  have hplaced : Placed q' ((f + k) % q.cn) := by
    refine ⟨?_, ?_, ?_, ?_⟩
    · rw [hcn]
      exact Nat.mod_lt _ hp.pos
    · rw [hcc, hcn]
      exact Nat.le_trans (Nat.sub_le _ _) hp.le
    · rw [hcf]
      exact congrArg some (RingBuf.wrap_eq_mod hkn)
    · rw [hcl, hp.cl, hcn, hcc, Nat.mod_add_mod, Nat.add_assoc, Nat.add_sub_cancel' hk]
  refine ⟨hplaced, ?_⟩
  rw [hp.contents_eq, hplaced.contents_eq, RingBuf.drop_window hk, hcn, hcc]
  refine RingBuf.window_congr fun i hi => ?_
  rw [Nat.mod_add_mod, Nat.add_assoc]
  exact hslot i hi

/-- A turn of `ndflush`. -/
theorem ndflushLoop_spec (fuel : Nat) (hp : Placed q f) (hfuel : count ≤ fuel) :
    ∃ q' f', ndflushLoop fuel count q = some q' ∧ Placed q' f' ∧ q'.cn = q.cn
      ∧ q'.cq = q.cq ∧ contents q' = (contents q).drop count := by
  induction fuel generalizing count q f with
  | zero =>
    obtain rfl := Nat.le_zero.mp hfuel
    exact ⟨q, f, if_pos (.inl rfl), hp, rfl, rfl, rfl⟩
  | succ fuel ih =>
    by_cases hdone : count = 0 ∨ q.cc = 0
    · refine ⟨q, f, if_pos hdone, hp, rfl, rfl, ?_⟩
      obtain rfl | hcc := hdone
      · rfl
      · have hlen : (contents q).length ≤ count := by
          rw [hp.length, hcc]
          exact Nat.zero_le _
        rw [List.drop_of_length_le hlen, List.eq_nil_of_length_eq_zero (hp.length.trans hcc)]
    · obtain ⟨hcount, hcc⟩ := not_or.mp hdone
      have lt := hp.lt
      have hstretch := hp.stretch hcc
      obtain ⟨k, hk⟩ : ∃ k, k = min (stretch q f ((f + q.cc) % q.cn)) count := ⟨_, rfl⟩
      obtain ⟨q₁, hq₁⟩ : ∃ q₁ : Clist, q₁ = { q with cc := q.cc - k, cf := some (q.after (f + k)) } := ⟨_, rfl⟩
      have hloop : ndflushLoop (fuel + 1) count q = ndflushLoop fuel (count - k) q₁ := by
        rw [ndflushLoop, if_neg hdone, hp.cf, hp.cl]
        simp only [Option.bind_eq_bind, Option.bind_some, ← hk, hq₁, hp.cl]
      obtain ⟨hp₁, hcont₁⟩ := hp.advance q₁ (k := k) (by omega) (by omega) (by rw [hq₁])
        (by rw [hq₁]) (by rw [hq₁]) (by rw [hq₁]) (fun i _ => by rw [hq₁]; rfl)
      obtain ⟨q', f', hrun, hp', hcn, hcq, hcont⟩ := ih hp₁ (Nat.sub_le_iff_le_add.mpr (by omega : count ≤ fuel + k))
      refine ⟨q', f', hloop.trans hrun, hp', ?_, ?_, ?_⟩
      · rw [hcn, hq₁]
      · rw [hcq, hq₁]
      · rw [hcont, hcont₁, List.drop_drop, Nat.add_sub_cancel' (by omega)]

theorem ndflush_spec (h : Wf q) (count : Nat) :
    ∃ q', ndflush q count = some q' ∧ Wf q' ∧ abs q' = (abs q).ndflush count := by
  unfold ndflush
  by_cases hall : count = q.cc
  · rw [if_pos hall]
    refine ⟨_, rfl, .inl ⟨rfl, rfl, rfl⟩, ?_⟩
    have hnil : (contents q).drop count = [] := List.drop_of_length_le (h.length.trans hall.symm).le
    rw [Deque.ndflush, abs, abs, hnil]
    rfl
  · rw [if_neg hall]
    by_cases hcc : q.cc = 0
    · have hsettle : q.settle = { q with cf := none, cl := none } := if_pos hcc
      have hloop : ndflushLoop count count q = some q := by
        cases count with
        | zero => exact if_pos (.inr hcc)
        | succ count => exact if_pos (.inr hcc)
      refine ⟨q.settle, by rw [hloop]; rfl, ?_, ?_⟩
      · rw [hsettle]
        exact .inl ⟨hcc, rfl, rfl⟩
      · rw [hsettle]
        rw [Deque.ndflush, abs, abs, h.contents_nil hcc, List.drop_nil]
        rfl
    · obtain ⟨f, hp⟩ := h.placed hcc
      obtain ⟨q', f', hrun, hp', hcn, hcq, hcont⟩ := ndflushLoop_spec count hp (Nat.le_refl count)
      obtain ⟨hwf, habs⟩ := hp'.settle
      refine ⟨q'.settle, by rw [hrun]; rfl, hwf, ?_⟩
      rw [habs]
      simp only [Deque.ndflush, abs, hcn, hcq, hcont]

/-- The quote bits that `q_to_b` clears are in the array. They are counted from `c_cl` on, and
only those for characters before `c_cl` can be too many. -/
def clearFits (q : Clist) (count : Nat) : Prop :=
  ∀ f l, q.cf = some f → q.cl = some l → q.cq.isSome = true →
    let n := min count q.cc
    let k := if f < l then n else n - (q.cn - f)
    k = 0 ∨ (l + k - 1) / 8 < qmem q.cn

/-- A turn of `q_to_b`. -/
theorem takeTurn (hp : Placed q f) (hcc : q.cc ≠ 0) (hcount : count ≠ 0) (hfits : clearFits q count)
    (hk : k = min (stretch q f ((f + q.cc) % q.cn)) count) :
    ∃ q₁ q₂ q₃, takeBytes q f k = some (((contents q).take k).map Prod.fst, q₁)
      ∧ clrbits q₁ ((f + q.cc) % q.cn) k = some q₂
      ∧ q₃ = { q₂ with cc := q₂.cc - k, cf := some (q₂.after (f + k)) }
      ∧ Placed q₃ ((f + k) % q.cn) ∧ contents q₃ = (contents q).drop k
      ∧ q₃.cn = q.cn ∧ q₃.cq.isSome = q.cq.isSome ∧ clearFits q₃ (count - k) := by
  have lt := hp.lt
  have le := hp.le
  rw [hp.stretch hcc] at hk
  have hkn : f + k ≤ q.cn := by omega
  obtain ⟨q₁, hq₁⟩ : ∃ q₁ : Clist, q₁ = { q with
    cs := fun j => if f ≤ j ∧ j < f + k then 0 else q.cs j } := ⟨_, rfl⟩
  have hbytes : takeBytes q f k = some (((contents q).take k).map Prod.fst, q₁) := by
    rw [takeBytes, if_pos hkn, hp.contents_eq, RingBuf.take_window (by omega),
      RingBuf.window_straight _ hkn, List.map_map, hq₁]
    rfl
  obtain ⟨l, hl⟩ : ∃ l, l = (f + q.cc) % q.cn := ⟨_, rfl⟩
  have hcl : q.cl = some l := by rw [hl, hp.cl]
  have hleq : l = if f + q.cc < q.cn then f + q.cc else f + q.cc - q.cn := by
    rw [hl, RingBuf.slot_eq lt le]
  have hq : (q₁.cq.isSome = true → (l + k - 1) / 8 < qmem q₁.cn) := by
    rw [hq₁]
    intro hsome
    have hf := hfits f l hp.cf hcl hsome
    dsimp only at hf ⊢
    unfold qmem at hf ⊢
    split at hf <;> split at hleq <;> omega
  obtain ⟨cq, hclr, hsome, hquote⟩ := clrbits_spec (q := q₁) (i := l) (by omega : 0 < k) hq
  rw [← hl]
  refine ⟨q₁, _, _, hbytes, hclr, rfl, ?_⟩
  obtain ⟨q₃, hq₃⟩ : ∃ q₃ : Clist, q₃ = { q₁ with
    cq := cq, cc := q₁.cc - k, cf := some (q₁.after (f + k)) } := ⟨_, rfl⟩
  subst hq₁
  have hadv := hp.advance q₃ (k := k) (by omega) hkn (by rw [hq₃]) (by rw [hq₃]) (by rw [hq₃]; rfl)
    (by rw [hq₃]) (by
      intro i hi
      rw [hq₃]
      -- what is left is neither among the bytes taken nor among the bits cleared
      have hslot := RingBuf.slot_eq (c := k + i) lt (by omega)
      have hout : ¬(f ≤ (f + (k + i)) % q.cn ∧ (f + (k + i)) % q.cn < f + k) := by
        rw [hslot]
        split <;> omega
      have hbit : ¬(l ≤ (f + (k + i)) % q.cn ∧ (f + (k + i)) % q.cn < l + k) := by
        rw [hslot]
        split <;> split at hleq <;> omega
      simp only [slot, hquote, if_neg hout, decide_eq_false hbit, Bool.not_false, Bool.and_true])
  rw [hq₃] at hadv
  refine ⟨hadv.1, hadv.2, rfl, hsome, ?_⟩
  intro f' l' hf' hl' hs'
  have hf := hfits f l hp.cf hcl (hsome ▸ hs')
  obtain rfl : l = l' := Option.some.inj (hcl.symm.trans hl')
  have hf' : (if f + k = q.cn then 0 else f + k) = f' := Option.some.inj hf'
  dsimp only at hf ⊢
  split at hf' <;> split at hf <;> split at hleq <;> split <;> omega

theorem qToBLoop_spec (fuel : Nat) (p : List UInt8) (hp : Placed q f) (hfuel : count ≤ fuel)
    (hfits : clearFits q count) :
    ∃ q' f', qToBLoop fuel count p q = some (p ++ ((contents q).take count).map Prod.fst, q')
      ∧ Placed q' f' ∧ q'.cn = q.cn ∧ q'.cq.isSome = q.cq.isSome
      ∧ contents q' = (contents q).drop count := by
  induction fuel generalizing count q f p with
  | zero =>
    obtain rfl := Nat.le_zero.mp hfuel
    refine ⟨q, f, ?_, hp, rfl, rfl, rfl⟩
    rw [List.take_zero, List.map_nil, List.append_nil]
    exact if_pos (.inl rfl)
  | succ fuel ih =>
    by_cases hdone : count = 0 ∨ q.cc = 0
    · have hnone : (contents q).take count = [] ∧ (contents q).drop count = contents q := by
        obtain rfl | hcc := hdone
        · exact ⟨rfl, rfl⟩
        · have hnil := List.eq_nil_of_length_eq_zero (hp.length.trans hcc)
          rw [hnil]
          exact ⟨List.take_nil, List.drop_nil⟩
      refine ⟨q, f, ?_, hp, rfl, rfl, hnone.2.symm⟩
      rw [hnone.1, List.map_nil, List.append_nil]
      exact if_pos hdone
    · obtain ⟨hcount, hcc⟩ := not_or.mp hdone
      have hstretch := hp.stretch hcc
      have lt := hp.lt
      obtain ⟨k, hk⟩ : ∃ k, k = min (stretch q f ((f + q.cc) % q.cn)) count := ⟨_, rfl⟩
      obtain ⟨q₁, q₂, q₃, hbytes, hclr, hq₃, hp₃, hcont₃, hcn₃, hsome₃, hfits₃⟩ :=
        takeTurn hp hcc hcount hfits hk
      have hloop : qToBLoop (fuel + 1) count p q
          = qToBLoop fuel (count - k) (p ++ ((contents q).take k).map Prod.fst) q₃ := by
        rw [qToBLoop, if_neg hdone, hp.cf, hp.cl]
        simp only [Option.bind_eq_bind, Option.bind_some, ← hk, hbytes, hclr, hq₃]
      obtain ⟨q', f', hrun, hp', hcn, hsome, hcont⟩ := ih (p ++ ((contents q).take k).map Prod.fst) hp₃
        (Nat.sub_le_iff_le_add.mpr (by omega : count ≤ fuel + k)) hfits₃
      refine ⟨q', f', ?_, hp', hcn.trans hcn₃, hsome.trans hsome₃, ?_⟩
      · have htake : (contents q).take k ++ ((contents q).drop k).take (count - k)
            = (contents q).take count := by
          rw [← List.take_add, Nat.add_sub_cancel' (by omega)]
        rw [hloop, hrun, hcont₃, List.append_assoc, ← List.map_append, htake]
      · rw [hcont, hcont₃, List.drop_drop, Nat.add_sub_cancel' (by omega)]

theorem qToB_spec (h : Wf q) (hfits : clearFits q count) :
    ∃ r q', qToB q count = some (r, q') ∧ Wf q' ∧ (abs q).qToB count = (r, abs q') := by
  unfold qToB
  by_cases hcc : q.cc = 0
  · have hsettle : q.settle = { q with cf := none, cl := none } := if_pos hcc
    have hloop : qToBLoop count count [] q = some ([], q) := by
      cases count with
      | zero => exact if_pos (.inr hcc)
      | succ count => exact if_pos (.inr hcc)
    refine ⟨[], q.settle, by rw [hloop]; rfl, ?_, ?_⟩
    · rw [hsettle]
      exact .inl ⟨hcc, rfl, rfl⟩
    · rw [hsettle, Deque.qToB, abs, abs, h.contents_nil hcc, List.take_nil, List.drop_nil]
      rfl
  · obtain ⟨f, hp⟩ := h.placed hcc
    obtain ⟨q', f', hrun, hp', hcn, hsome, hcont⟩ := qToBLoop_spec count [] hp (Nat.le_refl count) hfits
    obtain ⟨hwf, habs⟩ := hp'.settle
    refine ⟨_, q'.settle, by rw [hrun]; rfl, hwf, ?_⟩
    rw [habs, Deque.qToB]
    simp only [abs, hcn, hsome, hcont, List.nil_append]

/-- The list after the bytes `p` were put behind its end. -/
theorem putTurn {p : List UInt8} (hp : Placed q f) (hp0 : p ≠ []) (hroom : q.cc < q.cn) (l : Nat)
    (hl : l = (f + q.cc) % q.cn)
    (hk : k = min (if f > l then f - l else q.cn - l) p.length) :
    ∃ q₁ q₂ q₃, putBytes q l (p.take k) = some q₁ ∧ clrbits q₁ l k = some q₂
      ∧ q₃ = { q₂ with cc := q₂.cc + k, cl := some (q₂.after (l + k)) }
      ∧ 0 < k ∧ q.cc + k ≤ q.cn
      ∧ Placed q₃ f ∧ contents q₃ = contents q ++ (p.take k).map (fun c => (c, false))
      ∧ q₃.cc = q.cc + k ∧ q₃.cn = q.cn ∧ q₃.cq.isSome = q.cq.isSome := by
  have lt := hp.lt
  have hleq : l = if f + q.cc < q.cn then f + q.cc else f + q.cc - q.cn := by
    rw [hl, RingBuf.slot_eq lt hp.le]
  have hplen : p.length ≠ 0 := fun h0 => hp0 (List.eq_nil_of_length_eq_zero h0)
  have hbounds : 0 < k ∧ l + k ≤ q.cn ∧ q.cc + k ≤ q.cn ∧ k ≤ p.length := by
    split at hk <;> split at hleq <;> omega
  obtain ⟨hk0, hlk, hck, hkp⟩ := hbounds
  have hlen : (p.take k).length = k := List.length_take_of_le hkp
  obtain ⟨q₁, hq₁⟩ : ∃ q₁ : Clist, q₁ = { q with
    cs := fun j => if l ≤ j ∧ j < l + k then (p.take k).getD (j - l) 0 else q.cs j } := ⟨_, rfl⟩
  have hput : putBytes q l (p.take k) = some q₁ := by
    rw [putBytes, hlen, if_pos hlk, hq₁]
  have hq : q₁.cq.isSome = true → (l + k - 1) / 8 < qmem q₁.cn := by
    rw [hq₁]
    intro _
    exact lt_qmem (q := q) (by omega)
  obtain ⟨cq, hclr, hsome, hquote⟩ := clrbits_spec (q := q₁) (i := l) hk0 hq
  refine ⟨q₁, _, _, hput, hclr, rfl, hk0, hck, ?_⟩
  obtain ⟨q₃, hq₃⟩ : ∃ q₃ : Clist, q₃ = { q₁ with
    cq := cq, cc := q₁.cc + k, cl := some (q₁.after (l + k)) } := ⟨_, rfl⟩
  subst hq₁
  have hplaced : Placed q₃ f := by
    rw [hq₃]
    refine ⟨lt, hck, hp.cf, ?_⟩
    refine congrArg some ((RingBuf.wrap_eq_mod hlk).trans ?_)
    rw [hl, Nat.mod_add_mod, Nat.add_assoc]
  have hcont : contents q₃ = contents q ++ (p.take k).map (fun c => (c, false)) := by
    rw [hplaced.contents_eq, hp.contents_eq, hq₃]
    dsimp only
    rw [RingBuf.window_add, ← hl]
    congr 1
    · refine RingBuf.window_congr fun i hi => ?_
      have hslot := RingBuf.slot_eq (c := i) lt (by omega)
      have hout : ¬(l ≤ (f + i) % q.cn ∧ (f + i) % q.cn < l + k) := by
        rw [hslot]
        split <;> split at hleq <;> omega
      simp only [slot, hquote, if_neg hout, decide_eq_false hout, Bool.not_false, Bool.and_true]
    · rw [RingBuf.window_straight _ hlk]
      refine List.ext_getElem (by rw [List.length_map, List.length_map, List.length_range, hlen]) fun i h1 h2 => ?_
      have hi : i < k := by simpa using h1
      have hin : l ≤ l + i ∧ l + i < l + k := by omega
      simp only [List.getElem_map, List.getElem_range, slot, hquote, if_pos hin, decide_eq_true hin,
        Bool.not_true, Bool.and_false, Nat.add_sub_cancel_left]
      rw [List.getD_eq_getElem?_getD, List.getElem?_eq_getElem (by omega), Option.getD_some]
  rw [hq₃] at hplaced hcont
  exact ⟨hplaced, hcont, rfl, rfl, hsome⟩

theorem bToQLoop_spec (fuel : Nat) (p : List UInt8) (hp : Placed q f) (hfuel : p.length ≤ fuel) :
    ∃ q', bToQLoop fuel p q = some (p.drop (q.cn - q.cc), q') ∧ Placed q' f ∧ q'.cn = q.cn
      ∧ q'.cq.isSome = q.cq.isSome ∧ q'.cc = q.cc + min p.length (q.cn - q.cc)
      ∧ contents q' = contents q ++ (p.take (q.cn - q.cc)).map fun c => (c, false) := by
  induction fuel generalizing q p with
  | zero =>
    obtain rfl := List.eq_nil_of_length_eq_zero (Nat.le_zero.mp hfuel)
    refine ⟨q, ?_, hp, rfl, rfl, by simp, by simp⟩
    rw [List.drop_nil]
    exact if_pos (.inl rfl)
  | succ fuel ih =>
    by_cases hdone : p = [] ∨ q.cn ≤ q.cc
    · have hnone : p.take (q.cn - q.cc) = [] ∧ p.drop (q.cn - q.cc) = p
          ∧ min p.length (q.cn - q.cc) = 0 := by
        obtain rfl | hfull := hdone
        · exact ⟨List.take_nil, List.drop_nil, Nat.zero_min _⟩
        · rw [Nat.sub_eq_zero_of_le hfull]
          exact ⟨rfl, rfl, Nat.min_zero _⟩
      refine ⟨q, ?_, hp, rfl, rfl, ?_, ?_⟩
      · rw [hnone.2.1]
        exact if_pos hdone
      · rw [hnone.2.2, Nat.add_zero]
      · rw [hnone.1, List.map_nil, List.append_nil]
    · obtain ⟨hp0, hroom⟩ := not_or.mp hdone
      obtain ⟨l, hl⟩ : ∃ l, l = (f + q.cc) % q.cn := ⟨_, rfl⟩
      obtain ⟨k, hk⟩ : ∃ k, k = min (if f > l then f - l else q.cn - l) p.length := ⟨_, rfl⟩
      obtain ⟨q₁, q₂, q₃, hput, hclr, hq₃, hk0, hck, hp₃, hcont₃, hcc₃, hcn₃, hsome₃⟩ :=
        putTurn hp hp0 (Nat.not_le.mp hroom) l hl hk
      have hloop : bToQLoop (fuel + 1) p q = bToQLoop fuel (p.drop k) q₃ := by
        rw [bToQLoop, if_neg hdone, hp.cf, hp.cl]
        simp only [Option.bind_eq_bind, Option.bind_some, ← hl, ← hk, hput, hclr, hq₃]
      obtain ⟨q', hrun, hp', hcn, hsome, hcc, hcont⟩ := ih (p.drop k) hp₃ (by
        rw [List.length_drop]
        omega)
      have hrest : q₃.cn - q₃.cc = q.cn - q.cc - k := by
        rw [hcn₃, hcc₃, Nat.sub_sub]
      have hsum : k + (q.cn - q.cc - k) = q.cn - q.cc := by omega
      rw [hrest] at hrun hcc hcont
      refine ⟨q', ?_, hp', hcn.trans hcn₃, hsome.trans hsome₃, ?_, ?_⟩
      · rw [hloop, hrun, List.drop_drop, hsum]
      · rw [hcc, hcc₃, List.length_drop]
        omega
      · rw [hcont, hcont₃, List.append_assoc, ← List.map_append, ← List.take_add, hsum]

theorem bToQ_spec (p : List UInt8) (h : Wf q) :
    ∃ r q', bToQ p q = some (r, q') ∧ Wf q' ∧ (abs q).bToQ p = (r, abs q') := by
  have hroom : (abs q).room = q.cn - q.cc := by
    rw [Deque.room, abs, h.length]
  unfold bToQ
  by_cases hp0 : p = []
  · refine ⟨0, q, if_pos hp0, h, ?_⟩
    subst hp0
    rw [Deque.bToQ, List.length_nil, Nat.zero_sub, List.take_nil, List.map_nil, List.append_nil]
  · rw [if_neg hp0]
    by_cases hfull : q.cc = q.cn
    · refine ⟨p.length, q, if_pos hfull, h, ?_⟩
      rw [Deque.bToQ, hroom, hfull, Nat.sub_self, Nat.sub_zero, List.take_zero, List.map_nil, List.append_nil]
    · rw [if_neg hfull]
      obtain ⟨⟨f, hp⟩, habs⟩ := h.start hfull
      obtain ⟨q', hrun, hp', hcn, hsome, hcc, hcont⟩ := bToQLoop_spec p.length p hp le_rfl
      have hplen : p.length ≠ 0 := fun h0 => hp0 (List.eq_nil_of_length_eq_zero h0)
      rw [start_cn, start_cc] at hrun hcc hcont
      refine ⟨_, q', by rw [hrun]; rfl, .inr ⟨by omega, f, hp'⟩, ?_⟩
      rw [← habs] at hroom ⊢
      rw [Deque.bToQ, hroom, List.length_drop]
      simp only [abs, start_cn, hcn, hsome, hcont]

end Bulk

/-! ## Moving one list to another -/

/-- Only a list with quote bits holds quoted characters. -/
theorem quote_of_mem {c : Chr} (hc : c ∈ contents q) : (c.2 && q.cq.isSome) = c.2 := by
  unfold contents at hc
  cases hf : q.cf with
  | none =>
    rw [hf] at hc
    cases hc
  | some f =>
    rw [hf] at hc
    obtain ⟨i, -, rfl⟩ := List.mem_map.mp hc
    unfold slot quoteAt
    cases q.cq with
    | none => rfl
    | some map => exact Bool.and_true _

namespace Deque

variable {d e : Deque} {c : Chr} {cs : List Chr}

theorem getc_eq_none (h : d.getc = (none, e)) : d.items = [] ∧ e = d := by
  obtain ⟨h1, h2⟩ := Prod.mk.injEq .. ▸ h
  have hnil : d.items = [] := List.head?_eq_none_iff.mp h1
  refine ⟨hnil, ?_⟩
  rw [← h2, hnil, List.tail_nil, ← hnil]

theorem getc_eq_some (h : d.getc = (some c, e)) : d.items = c :: e.items ∧ e = { d with items := e.items } := by
  obtain ⟨h1, h2⟩ := Prod.mk.injEq .. ▸ h
  subst h2
  obtain ⟨l, hl⟩ := List.head?_eq_some_iff.mp h1
  refine ⟨?_, rfl⟩
  rw [hl, List.tail_cons]

/-- The first character goes where `putc` puts it, and the rest after it. -/
theorem catq_cons {src : Deque} (hle : d.items.length ≤ d.cap) (hsrc : src.items = c :: cs) :
    src.catq d = { src with items := cs }.catq (d.putc c).2 := by
  by_cases hfull : d.items.length = d.cap
  · have hroom : d.room = 0 := by rw [room, hfull, Nat.sub_self]
    rw [putc, if_pos hfull, catq, catq, hroom, List.take_zero, List.take_zero]
  · have hroom : d.room = { d with items := d.items ++ [d.stored c] }.room + 1 := by
      simp only [room, List.length_append, List.length_singleton]
      omega
    rw [putc, if_neg hfull, catq, catq, hsrc, hroom, List.take_succ_cons, List.map_cons]
    simp only [List.append_assoc, List.singleton_append]
    rfl

end Deque

theorem catqLoop_spec {src dst : Clist} (fuel : Nat) (hs : Wf src) (hd : Wf dst) (hfuel : src.cc < fuel) :
    ∃ src' dst', catqLoop fuel src dst = some (src', dst') ∧ Wf src' ∧ Wf dst'
      ∧ (abs src).catq (abs dst) = (abs src', abs dst') := by
  induction fuel generalizing src dst with
  | zero => exact absurd hfuel (Nat.not_lt_zero _)
  | succ fuel ih =>
    obtain ⟨r, src₁, hget, hs₁, hdget⟩ := getc_spec hs
    cases r with
    | none =>
      obtain ⟨hnil, hsame⟩ := Deque.getc_eq_none hdget
      refine ⟨src₁, dst, ?_, hs₁, hd, ?_⟩
      · rw [catqLoop, hget]
        rfl
      · rw [Deque.catq, hnil, List.take_nil, List.map_nil, List.append_nil, hsame, ← hnil]
    | some c =>
      obtain ⟨hcons, hrest⟩ := Deque.getc_eq_some hdget
      obtain ⟨ok, dst₁, hput, hd₁, hdput⟩ := putc_spec c hd
      have hlen : src₁.cc < fuel := by
        have h1 := congrArg List.length hcons
        have h2 : (contents src).length = (contents src₁).length + 1 := h1
        rw [hs.length, hs₁.length] at h2
        omega
      obtain ⟨src', dst', hrun, hs', hd', hcat⟩ := ih hs₁ hd₁ hlen
      refine ⟨src', dst', ?_, hs', hd', ?_⟩
      · rw [catqLoop, hget]
        simp only [Option.bind_eq_bind, Option.bind_some, hput]
        exact hrun
      · have hle : (abs dst).items.length ≤ (abs dst).cap := by
          rw [abs, hd.length]
          exact hd.le
        rw [Deque.catq_cons hle hcons, ← hrest, hdput]
        exact hcat

/-- The two lists are swapped only if both keep their quote bits. -/
theorem catq_spec {src dst : Clist} (hs : Wf src) (hd : Wf dst)
    (hquote : src.cc ≠ 0 → dst.cc = 0 → src.cn = dst.cn → src.cq.isSome = dst.cq.isSome) :
    ∃ src' dst', catq src dst = some (src', dst') ∧ Wf src' ∧ Wf dst'
      ∧ (abs src).catq (abs dst) = (abs src', abs dst') := by
  unfold catq
  by_cases hs0 : src.cc = 0
  · refine ⟨src, dst, if_pos hs0, hs, hd, ?_⟩
    rw [Deque.catq, abs, abs, hs.contents_nil hs0, List.take_nil, List.map_nil, List.append_nil]
  · rw [if_neg hs0]
    by_cases hswap : dst.cc = 0 ∧ src.cn = dst.cn
    · refine ⟨dst, src, if_pos hswap, hd, hs, ?_⟩
      have hsame := hquote hs0 hswap.1 hswap.2
      have hnil := hd.contents_nil hswap.1
      have hroom : (abs dst).room = src.cn := by
        rw [Deque.room, abs, hnil, List.length_nil, Nat.sub_zero, hswap.2]
      have hall : (contents src).take src.cn = contents src :=
        List.take_of_length_le (hs.length.le.trans hs.le)
      have hkeep : (contents src).map (abs dst).stored = contents src := by
        refine (List.map_congr_left fun c hc => ?_).trans (List.map_id _)
        have hflag := quote_of_mem hc
        rw [hsame] at hflag
        exact Prod.ext rfl hflag
      rw [Deque.catq, hroom]
      simp only [abs, hnil, List.nil_append, hswap.2, hsame]
      rw [hswap.2] at hall
      rw [hall]
      exact congrArg (fun l => (_, Deque.mk _ _ l)) hkeep
    · rw [if_neg hswap]
      exact catqLoop_spec (src.cc + 1) hs hd (Nat.lt_succ_self _)

/-! ## Scanning a list -/

theorem charAt_eq (h : i < q.cn) : charAt q i = some (slot q i, i) := by
  simp only [charAt, byteAt, if_pos h, isset_eq h, Option.bind_eq_bind, Option.bind_some]
  rfl

/-- From the character at place `i` on, `nextc` gives the rest. -/
theorem scanLoop_spec (fuel : Nat) (hp : Placed q f) (hi : i < q.cc) (hfuel : q.cc - i ≤ fuel) :
    scanLoop q fuel (q.cc - i) ((f + i) % q.cn)
      = some (window (slot q) q.cn ((f + (i + 1)) % q.cn) (q.cc - (i + 1))) := by
  have lt := hp.lt
  have le := hp.le
  induction fuel generalizing i with
  | zero => omega
  | succ fuel ih =>
    -- the static count is loaded again at the first character
    have hcount : (if q.cf = some ((f + i) % q.cn) then q.cc else q.cc - i) = q.cc - i := by
      split
      · rename_i hfirst
        rw [hp.cf] at hfirst
        have hfi : f = (f + i) % q.cn := Option.some.inj hfirst
        rw [RingBuf.slot_eq lt (by omega)] at hfi
        split at hfi <;> omega
      · rfl
    by_cases hlast : q.cc - i - 1 = 0
    · have hnext : nextc q (q.cc - i) ((f + i) % q.cn) = some (q.cc - i - 1, none) := by
        rw [nextc]
        simp only [hcount, if_neg (by omega : ¬q.cc - i = 0), if_pos hlast]
      rw [scanLoop, hnext, show q.cc - (i + 1) = 0 by omega, RingBuf.window_zero]
      rfl
    · have hafter : q.after ((f + i) % q.cn + 1) = (f + (i + 1)) % q.cn := by
        refine (RingBuf.wrap_eq_mod (Nat.mod_lt _ hp.pos)).trans ?_
        rw [Nat.mod_add_mod, Nat.add_assoc]
      have hchar := charAt_eq (q := q) (i := (f + (i + 1)) % q.cn) (Nat.mod_lt _ hp.pos)
      have hnext : nextc q (q.cc - i) ((f + i) % q.cn)
          = some (q.cc - i - 1, some (slot q ((f + (i + 1)) % q.cn), (f + (i + 1)) % q.cn)) := by
        rw [nextc]
        simp only [hcount, if_neg (by omega : ¬q.cc - i = 0), if_neg hlast, hafter, hchar,
          Option.bind_eq_bind, Option.bind_some]
      rw [scanLoop, hnext, RingBuf.window_cons _ (Nat.mod_lt _ hp.pos) (by omega)]
      simp only [Option.bind_eq_bind, Option.bind_some]
      rw [show q.cc - i - 1 = q.cc - (i + 1) by omega, ih (by omega) (by omega), Option.map_some,
        Nat.mod_add_mod]
      congr 3

theorem scan_spec (h : Wf q) : scan q = some (contents q) := by
  unfold scan
  by_cases hcc : q.cc = 0
  · rw [firstc, if_pos hcc, h.contents_nil hcc]
    rfl
  · obtain ⟨f, hp⟩ := h.placed hcc
    have hloop := scanLoop_spec q.cc (i := 0) hp (Nat.pos_of_ne_zero hcc) le_rfl
    rw [Nat.add_zero, Nat.mod_eq_of_lt hp.lt, Nat.sub_zero] at hloop
    rw [firstc, if_neg hcc, hp.cf]
    simp only [Option.bind_eq_bind, Option.bind_some, charAt_eq hp.lt]
    rw [hloop, hp.contents_eq, RingBuf.window_cons _ hp.lt hcc]
    rfl

end Obsd.Tty
