import Obsd.ClistNdqb

/-!
# The bytes of the quote array

Which bytes of `c_cq` the functions of `tty_subr.c` read and write, on a
list that has quote bits. `touched` lists them in the order of the code; it
does not say what is done with them, which `touched_lt_iff` connects to the
model: a call has a result exactly if they are all in the array. All calls
keep to the array but two: `q_to_b`, which counts the bits it clears from
`c_cl` on, and `ndqb`, which looks at the bit behind the last character of
a buffer.
-/

namespace Obsd.Tty

/-! ## The calls -/

/-- A call on a list. A count that is not positive moves nothing. The `cc` of `nextc` is the
static counter. -/
inductive Use where
  | getc
  | qToB (count : Int)
  | ndqb (flag : BitVec 32)
  | putc (c : Chr)
  | bToQ (p : List UInt8)
  | nextc (cc cp : Nat)
  | unputc
deriving DecidableEq

/-- What the code asks of its callers: the pointer for `nextc` is one into the list. -/
def Use.Given (q : Clist) : Use → Prop
  | .nextc _ cp => cp < q.cn
  | _ => True

def Use.hasResult (q : Clist) : Use → Bool
  | .getc => (Tty.getc q).isSome
  | .qToB count => (Tty.qToB q count.toNat).isSome
  | .ndqb flag => (Tty.ndqb q flag).isSome
  | .putc c => (Tty.putc c q).isSome
  | .bToQ p => (Tty.bToQ p q).isSome
  | .nextc cc cp => (Tty.nextc q cc cp).isSome
  | .unputc => (Tty.unputc q).isSome

/-! ## Where they go -/

/-- The loop of `q_to_b`. What is in the array does not matter for where it goes. -/
def qToBTouched : (fuel count : Nat) → Clist → List Nat
  | 0, _, _ => []
  | fuel + 1, count, q =>
    if count = 0 ∨ q.cc = 0 then []
    else
      match q.cf, q.cl with
      | some f, some l =>
        let cc := min (stretch q f l) count
        clrbitsTouched l cc ++ qToBTouched fuel (count - cc) (q.taken f cc q.cq)
      | _, _ => []

/-- The loop of `b_to_q`, with `n` bytes to move. -/
def bToQTouched : (fuel n : Nat) → Clist → List Nat
  | 0, _, _ => []
  | fuel + 1, n, q =>
    if n = 0 ∨ q.cn ≤ q.cc then []
    else
      match q.cf, q.cl with
      | some f, some l =>
        let cc := min (if f > l then f - l else q.cn - l) n
        clrbitsTouched l cc
          ++ bToQTouched fuel (n - cc) { q with cc := q.cc + cc, cl := some (q.after (l + cc)) }
      | _, _ => []

/-- The loop of `ndqb` with `TTY_QUOTE`. -/
def ndqbTouched (q : Clist) (flag : BitVec 32) : (cc i : Nat) → List Nat
  | 0, _ => []
  | cc + 1, i =>
    if flagged (q.cs i) (flag &&& ~~~ttyQuote) then []
    else (i + 1) / 8 :: if quoteAt q.cq (i + 1) || i + 1 == q.cn then [] else ndqbTouched q flag cc (i + 1)

/-- The bytes of `c_cq` that a call reads or writes. -/
def touched (q : Clist) : Use → List Nat
  | .getc =>
    if q.cc = 0 then []
    else
      match q.cf, q.cl with
      | some f, some l => [f / 8, l / 8]
      | _, _ => []
  | .qToB count => qToBTouched count.toNat count.toNat q
  | .ndqb flag =>
    if q.cc = 0 then []
    else if flag = 0#32 then []
    else if flag &&& ttyQuote ≠ 0#32 then
      match q.cf with
      | some f => ndqbTouched q flag q.cc f
      | none => []
    else []
  | .putc _ =>
    if q.cc = q.cn then []
    else
      match q.start.cl with
      | some l => [l / 8]
      | none => []
  | .bToQ p =>
    if p = [] then []
    else if q.cc = q.cn then []
    else bToQTouched p.length p.length q.start
  | .nextc cc cp =>
    let cc := if q.cf = some cp then q.cc else cc
    if cc = 0 then []
    else if cc - 1 = 0 then []
    else [q.after (cp + 1) / 8]
  | .unputc =>
    if q.cc = 0 then []
    else
      match q.cl with
      | some l => [(if l = 0 then q.cn - 1 else l - 1) / 8]
      | none => []

/-- The loop of `ndqb` gets to the last place of a buffer whose quote bits fill their bytes. -/
def ReadsPast (q : Clist) (flag : BitVec 32) : Prop :=
  8 ∣ q.cn ∧ ∃ f, q.cf = some f ∧ q.cn ≤ f + q.cc
    ∧ (∀ i, f ≤ i → i < q.cn → flagged (q.cs i) flag = false)
    ∧ ∀ i, f < i → i < q.cn → quoteAt q.cq i = false

/-- The calls that keep to the array. -/
def Fits (q : Clist) : Use → Prop
  | .qToB count => clearFits q count.toNat
  | .ndqb flag => flag &&& ttyQuote = 0#32 ∨ ¬ReadsPast q flag
  | _ => True

/-! ## The loops -/

variable {q : Clist} {f i cc n count : Nat} {flag : BitVec 32}

theorem forall_mem_one {P : Nat → Prop} {b : Nat} (h : P b) : ∀ c ∈ [b], P c :=
  List.forall_mem_singleton.mpr h

theorem qToBTouched_lt_iff (fuel : Nat) (hp : Placed q f) (hsome : q.cq.isSome = true) (hfuel : count ≤ fuel) :
    (∀ b ∈ qToBTouched fuel count q, b < qmem q.cn) ↔ clearFits q count := by
  induction fuel generalizing count q f with
  | zero =>
    obtain rfl := Nat.le_zero.mp hfuel
    refine iff_of_true nofun ?_
    intro f l _ _ _
    simp
  | succ fuel ih =>
    by_cases hdone : count = 0 ∨ q.cc = 0
    · rw [qToBTouched, if_pos hdone]
      refine iff_of_true nofun ?_
      intro f l _ _ _
      rcases hdone with h0 | h0 <;> simp [h0]
    · obtain ⟨hcount, hcc⟩ := not_or.mp hdone
      have lt := hp.lt
      have hstretch := hp.stretch hcc
      obtain ⟨k, hk⟩ : ∃ k, k = min (stretch q f ((f + q.cc) % q.cn)) count := ⟨_, rfl⟩
      have hk0 : 0 < k := by omega
      have hrest := ih (hp.taken (k := k) (by omega) (by omega) q.cq) hsome (by omega : count - k ≤ fuel)
      have hcq : q.cq.isSome = q.cq.isSome := rfl
      rw [clearFits_turn hp hcc hcount hk hcq, ← hrest, hsome, qToBTouched, if_neg hdone,
        hp.cf, hp.cl]
      simp only [← hk, List.forall_mem_append, clrbitsTouched_lt_iff hk0, forall_true_left]
      rfl

/-- `b_to_q` clears bits of free places. -/
theorem bToQTouched_lt (fuel : Nat) (hp : Placed q f) : ∀ b ∈ bToQTouched fuel n q, b < qmem q.cn := by
  induction fuel generalizing n q f with
  | zero => nofun
  | succ fuel ih =>
    by_cases hdone : n = 0 ∨ q.cn ≤ q.cc
    · rw [bToQTouched, if_pos hdone]
      nofun
    · obtain ⟨hn, hroom⟩ := not_or.mp hdone
      have lt := hp.lt
      obtain ⟨l, hl⟩ : ∃ l, l = (f + q.cc) % q.cn := ⟨_, rfl⟩
      have hleq : l = if f + q.cc < q.cn then f + q.cc else f + q.cc - q.cn := by
        rw [hl, RingBuf.slot_eq lt hp.le]
      obtain ⟨k, hk⟩ : ∃ k, k = min (if f > l then f - l else q.cn - l) n := ⟨_, rfl⟩
      have hbounds : 0 < k ∧ l + k ≤ q.cn ∧ q.cc + k ≤ q.cn := by
        split at hk <;> split at hleq <;> omega
      obtain ⟨hk0, hlk, hck⟩ := hbounds
      have hplaced : Placed { q with cf := some f, cc := q.cc + k, cl := some (q.after (l + k)) } f := by
        refine ⟨lt, hck, rfl, congrArg some ((RingBuf.wrap_eq_mod hlk).trans ?_)⟩
        rw [hl, Nat.mod_add_mod, Nat.add_assoc]
      rw [bToQTouched, if_neg hdone, hp.cf, hp.cl]
      simp only [← hl, ← hk, List.forall_mem_append]
      exact ⟨(clrbitsTouched_lt_iff hk0).mpr (lt_qmem (by omega)), ih hplaced⟩

theorem lt_qmem_succ_iff (h : i < q.cn) : (i + 1) / 8 < qmem q.cn ↔ ¬(i + 1 = q.cn ∧ 8 ∣ q.cn) := by
  unfold qmem
  omega

theorem ndqbTouched_lt_iff (h : i < q.cn) :
    (∀ b ∈ ndqbTouched q flag cc i, b < qmem q.cn) ↔
      ¬(8 ∣ q.cn ∧ q.cn ≤ i + cc ∧ (∀ j, i ≤ j → j < q.cn → flagged (q.cs j) flag = false)
        ∧ ∀ j, i < j → j < q.cn → quoteAt q.cq j = false) := by
  induction cc generalizing i with
  | zero =>
    refine iff_of_true nofun ?_
    rintro ⟨-, hcn, -⟩
    omega
  | succ cc ih =>
    rw [ndqbTouched, flagged_and]
    cases hflag : flagged (q.cs i) flag with
    | true =>
      refine iff_of_true nofun ?_
      rintro ⟨-, -, hclean, -⟩
      rw [hclean i (Nat.le_refl i) h] at hflag
      cases hflag
    | false =>
      rw [if_neg Bool.false_ne_true, List.forall_mem_cons, lt_qmem_succ_iff h]
      by_cases hend : i + 1 = q.cn
      · have hstop : (quoteAt q.cq (i + 1) || i + 1 == q.cn) = true := by
          rw [beq_iff_eq.mpr hend, Bool.or_true]
        rw [if_pos hstop, and_iff_left nofun, and_iff_right hend]
        refine not_congr ⟨fun h8 => ⟨h8, by omega, fun j h1 h2 => ?_, fun j h1 h2 => ?_⟩, And.left⟩
        · obtain rfl : j = i := by omega
          exact hflag
        · omega
      · have hin : i + 1 < q.cn := by omega
        rw [and_iff_right fun h => hend h.1]
        cases hbit : quoteAt q.cq (i + 1) with
        | true =>
          refine iff_of_true nofun ?_
          rintro ⟨-, -, -, hbits⟩
          rw [hbits (i + 1) (Nat.lt_succ_self i) hin] at hbit
          cases hbit
        | false =>
          rw [Bool.false_or, if_neg (by rw [beq_iff_eq]; exact hend), ih hin]
          refine not_congr (and_congr_right fun _ => and_congr (by omega) (and_congr ?_ ?_))
          · constructor
            · intro hclean j h1 h2
              rcases Nat.eq_or_lt_of_le h1 with rfl | h1
              · exact hflag
              · exact hclean j h1 h2
            · exact fun hclean j h1 h2 => hclean j (by omega) h2
          · constructor
            · intro hbits j h1 h2
              rcases Nat.eq_or_lt_of_le h1 with rfl | h1
              · exact hbit
              · exact hbits j h1 h2
            · exact fun hbits j h1 h2 => hbits j (by omega) h2

theorem Placed.readsPast_iff (hp : Placed q f) :
    ReadsPast q flag ↔ 8 ∣ q.cn ∧ q.cn ≤ f + q.cc
      ∧ (∀ i, f ≤ i → i < q.cn → flagged (q.cs i) flag = false)
      ∧ ∀ i, f < i → i < q.cn → quoteAt q.cq i = false := by
  refine and_congr_right fun _ => ⟨?_, fun h => ⟨f, hp.cf, h⟩⟩
  rintro ⟨f', hf', h⟩
  obtain rfl := Option.some.inj (hp.cf.symm.trans hf')
  exact h

/-! ## All the calls -/

/-- On a list as the code keeps it, a call keeps to the array exactly if it is one of those
that fit. -/
theorem touched_lt (hwf : Wf q) (hsome : q.cq.isSome = true) (u : Use) (hu : u.Given q) :
    (∀ b ∈ touched q u, b < qmem q.cn) ↔ Fits q u := by
  cases u with
  | getc =>
    refine iff_of_true ?_ trivial
    rw [touched]
    split
    · nofun
    · rename_i hcc
      obtain ⟨f, hp⟩ := hwf.placed hcc
      rw [hp.cf, hp.cl]
      exact List.forall_mem_cons.mpr ⟨lt_qmem hp.lt, forall_mem_one (lt_qmem hp.cl_lt)⟩
  | qToB count =>
    by_cases hcc : q.cc = 0
    · have hnil : qToBTouched count.toNat count.toNat q = [] := by
        cases count.toNat with
        | zero => rfl
        | succ k => exact if_pos (.inr hcc)
      refine iff_of_true ?_ ?_
      · rw [touched, hnil]
        nofun
      · intro f l _ _ _
        simp [hcc]
    · obtain ⟨f, hp⟩ := hwf.placed hcc
      exact qToBTouched_lt_iff count.toNat hp hsome le_rfl
  | ndqb flag =>
    rw [touched, Fits]
    by_cases hq : flag &&& ttyQuote = 0#32
    · refine iff_of_true ?_ (.inl hq)
      rw [if_neg (not_not.mpr hq), ite_self, ite_self]
      nofun
    · have hflag : flag ≠ 0#32 := by
        rintro rfl
        exact hq BitVec.zero_and
      rw [or_iff_right hq, if_neg hflag, if_pos hq]
      rcases hwf with ⟨hcc, hcf, -⟩ | ⟨hcc, f, hp⟩
      · rw [if_pos hcc]
        refine iff_of_true nofun ?_
        rintro ⟨-, f, hf, -⟩
        rw [hcf] at hf
        cases hf
      · rw [if_neg hcc, hp.cf, hp.readsPast_iff]
        exact ndqbTouched_lt_iff hp.lt
  | putc c =>
    refine iff_of_true ?_ trivial
    rw [touched]
    split
    · nofun
    · rename_i hfull
      obtain ⟨⟨f, hp⟩, -⟩ := hwf.start hfull
      rw [hp.cl, ← start_cn (q := q)]
      exact forall_mem_one (lt_qmem hp.cl_lt)
  | bToQ p =>
    refine iff_of_true ?_ trivial
    rw [touched]
    split
    · nofun
    · split
      · nofun
      · rename_i hfull
        obtain ⟨⟨f, hp⟩, -⟩ := hwf.start hfull
        rw [← start_cn (q := q)]
        exact bToQTouched_lt p.length hp
  | nextc cc cp =>
    refine iff_of_true ?_ trivial
    rw [touched]
    generalize (if q.cf = some cp then q.cc else cc) = left
    split
    · nofun
    · split
      · nofun
      · refine forall_mem_one (lt_qmem ?_)
        have hcp : cp < q.cn := hu
        rw [Clist.after]
        split <;> omega
  | unputc =>
    refine iff_of_true ?_ trivial
    rw [touched]
    split
    · nofun
    · rename_i hcc
      obtain ⟨f, hp⟩ := hwf.placed hcc
      have hlt := hp.cl_lt
      rw [hp.cl]
      refine forall_mem_one (lt_qmem ?_)
      split <;> omega

theorem ndqbLoop_isSome (h : i < q.cn) : (ndqbLoop q flag cc i count).isSome = true := by
  induction cc generalizing i count with
  | zero => rfl
  | succ cc ih =>
    rw [ndqbLoop, byteAt, if_pos h]
    simp only [Option.bind_eq_bind, Option.bind_some]
    split
    · rfl
    · split
      · rfl
      · exact ih (by omega)

/-- The bits that the loop of `ndqb` looks at are those that it needs. -/
theorem ndqbQuoteLoop_isSome (hsome : q.cq.isSome = true) (h : i < q.cn) :
    (ndqbQuoteLoop q flag cc i count).isSome = true ↔ ∀ b ∈ ndqbTouched q flag cc i, b < qmem q.cn := by
  obtain ⟨map, hmap⟩ := Option.isSome_iff_exists.mp hsome
  induction cc generalizing i count with
  | zero => exact iff_of_true rfl (List.forall_mem_nil _)
  | succ cc ih =>
    rw [ndqbQuoteLoop_succ h, ndqbTouched, flagged_and]
    cases flagged (q.cs i) flag with
    | true => exact iff_of_true rfl (List.forall_mem_nil _)
    | false =>
      rw [if_neg Bool.false_ne_true, if_neg Bool.false_ne_true, List.forall_mem_cons]
      by_cases hin : (i + 1) / 8 < qmem q.cn
      · have hbit : quoteBit q (i + 1) = some (quoteAt q.cq (i + 1)) := by
          simp only [quoteBit, quoteAt, hmap]
          exact if_pos hin
        rw [hbit, Option.bind_some, and_iff_right hin]
        cases quoteAt q.cq (i + 1) with
        | true => exact iff_of_true rfl (List.forall_mem_nil _)
        | false =>
          rw [if_neg Bool.false_ne_true, Bool.false_or]
          by_cases hend : i + 1 = q.cn
          · rw [if_pos hend, if_pos (beq_iff_eq.mpr hend)]
            exact iff_of_true rfl (List.forall_mem_nil _)
          · rw [if_neg hend, if_neg (by rw [beq_iff_eq]; exact hend)]
            exact ih (by omega)
      · have hbit : quoteBit q (i + 1) = none := by
          simp only [quoteBit, hmap]
          exact if_neg hin
        rw [hbit]
        exact iff_of_false Bool.false_ne_true fun h => hin h.1

/-- A call of the model has a result exactly if the bytes it goes to are in the array. -/
theorem touched_lt_iff_hasResult (hwf : Wf q) (hsome : q.cq.isSome = true) (u : Use) (hu : u.Given q) :
    u.hasResult q = true ↔ ∀ b ∈ touched q u, b < qmem q.cn := by
  cases u with
  | getc =>
    obtain ⟨r, q', hq, -⟩ := getc_spec hwf
    exact iff_of_true (Option.isSome_of_eq_some hq) ((touched_lt hwf hsome .getc hu).mpr trivial)
  | qToB count =>
    rw [touched_lt hwf hsome _ hu]
    exact qToB_isSome hwf
  | ndqb flag =>
    rw [Use.hasResult, ndqb, touched]
    rcases hwf with ⟨hcc, -, -⟩ | ⟨hcc, f, hp⟩
    · rw [if_pos hcc, if_pos hcc]
      exact iff_of_true rfl nofun
    · rw [if_neg hcc, if_neg hcc, hp.cf]
      simp only [Option.bind_eq_bind, Option.bind_some, hp.cl]
      split
      · exact iff_of_true rfl nofun
      · split
        · exact ndqbQuoteLoop_isSome hsome hp.lt
        · exact iff_of_true (ndqbLoop_isSome hp.lt) nofun
  | putc c =>
    obtain ⟨r, q', hq, -⟩ := putc_spec c hwf
    exact iff_of_true (Option.isSome_of_eq_some hq) ((touched_lt hwf hsome (.putc c) hu).mpr trivial)
  | bToQ p =>
    obtain ⟨r, q', hq, -⟩ := bToQ_spec p hwf
    exact iff_of_true (Option.isSome_of_eq_some hq) ((touched_lt hwf hsome (.bToQ p) hu).mpr trivial)
  | nextc cc cp =>
    refine iff_of_true ?_ ((touched_lt hwf hsome (.nextc cc cp) hu).mpr trivial)
    have hcp : cp < q.cn := hu
    have hafter : q.after (cp + 1) < q.cn := by
      rw [Clist.after]
      split <;> omega
    rw [Use.hasResult, nextc]
    generalize (if q.cf = some cp then q.cc else cc) = left
    split
    · rfl
    · split
      · rfl
      · simp only [charAt_eq hafter, Option.bind_eq_bind, Option.bind_some]
        rfl
  | unputc =>
    obtain ⟨r, q', hq, -⟩ := unputc_spec hwf
    exact iff_of_true (Option.isSome_of_eq_some hq) ((touched_lt hwf hsome .unputc hu).mpr trivial)

/-- Whatever was called before: a call on a list with quote bits keeps to the array exactly if
the bits that `q_to_b` clears are in it, and `ndqb` does not get to the last place of a
buffer whose quote bits fill their bytes. -/
theorem quote_bytes_in_range_iff {ι : Type*} [DecidableEq ι] (size : ι → Nat) (quot : ι → Bool)
    (cs : List (Call ι)) (rs : List Result) (s : ι → Clist)
    (h : run cs (fresh size quot) = some (rs, s)) (i : ι) (hsome : (s i).cq.isSome = true) (u : Use)
    (hu : u.Given (s i)) :
    (∀ b ∈ touched (s i) u, b < qmem (s i).cn) ↔ Fits (s i) u :=
  touched_lt (reached_wf h i) hsome u hu

/-- Three of five characters are taken out of a buffer of nine. -/
theorem quote_bytes_of_nine : ∃ rs s,
    run [.bToQ [1, 2, 3, 4, 5] ()] (fresh (fun _ => 9) fun _ => true) = some (rs, s)
      ∧ ((∀ b ∈ touched (s ()) (.qToB 3), b < qmem (s ()).cn) ↔ Fits (s ()) (.qToB 3)) :=
  ⟨_, _, rfl, quote_bytes_in_range_iff (fun _ => 9) (fun _ => true) [.bToQ [1, 2, 3, 4, 5] ()] _ _ rfl ()
    rfl (.qToB 3) trivial⟩

/-- A buffer of eight has one byte of quote bits. With five characters in it, taking them out
clears bits of the next byte; when it is full, counting them reads it. -/
theorem quote_bytes_past_end :
    (∃ rs s, run [.bToQ [1, 2, 3, 4, 5] ()] (fresh (fun _ => 8) fun _ => true) = some (rs, s)
      ∧ qmem (s ()).cn = 1 ∧ touched (s ()) (.qToB 5) = [0, 1])
    ∧ ∃ rs s, run [.bToQ [1, 2, 3, 4, 5, 6, 7, 8] ()] (fresh (fun _ => 8) fun _ => true) = some (rs, s)
      ∧ qmem (s ()).cn = 1 ∧ touched (s ()) (.ndqb ttyQuote) = [0, 0, 0, 0, 0, 0, 0, 1] :=
  ⟨⟨_, _, rfl, by decide, by decide⟩, _, _, rfl, by decide, by decide⟩

end Obsd.Tty
