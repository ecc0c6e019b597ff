import Obsd.ClistDeque

/-!
# Sequences of calls on clists

Any number of lists, and any sequence of calls on them. As long as every
call goes well the results are those of deques. The calls that do not: a
`q_to_b` that clears quote bits past the end of `c_cq`, because it counts
them from `c_cl` on instead of from where the characters were; a `catq` of
a list to itself; and a `catq` that swaps a list that has quote bits with
one that has none.
-/

namespace Obsd.Tty

variable {ι : Type*} [DecidableEq ι]

inductive Call (ι : Type*) where
  | putc (c : Chr) (i : ι)
  | getc (i : ι)
  | unputc (i : ι)
  | bToQ (p : List UInt8) (i : ι)
  | qToB (i : ι) (count : Nat)
  | ndflush (i : ι) (count : Nat)
  | catq (i j : ι)

inductive Result where
  | put (ok : Bool)
  | chr (c : Option Chr)
  | left (n : Nat)
  | bytes (p : List UInt8)
  | done
deriving DecidableEq, Repr

/-- A call on some of the lists. `catq` of a list to itself gets and puts for ever. -/
def call (s : ι → Clist) : Call ι → Option (Result × (ι → Clist))
  | .putc c i => (putc c (s i)).map fun r => (.put r.1, Function.update s i r.2)
  | .getc i => (getc (s i)).map fun r => (.chr r.1, Function.update s i r.2)
  | .unputc i => (unputc (s i)).map fun r => (.chr r.1, Function.update s i r.2)
  | .bToQ p i => (bToQ p (s i)).map fun r => (.left r.1, Function.update s i r.2)
  | .qToB i count => (qToB (s i) count).map fun r => (.bytes r.1, Function.update s i r.2)
  | .ndflush i count => (ndflush (s i) count).map fun q => (.done, Function.update s i q)
  | .catq i j =>
    if i = j then if (s i).cc = 0 then some (.done, s) else none
    else (catq (s i) (s j)).map fun r => (.done, Function.update (Function.update s i r.1) j r.2)

/-- What the call should do. -/
def callDeque (d : ι → Deque) : Call ι → Result × (ι → Deque)
  | .putc c i => (.put ((d i).putc c).1, Function.update d i ((d i).putc c).2)
  | .getc i => (.chr (d i).getc.1, Function.update d i (d i).getc.2)
  | .unputc i => (.chr (d i).unputc.1, Function.update d i (d i).unputc.2)
  | .bToQ p i => (.left ((d i).bToQ p).1, Function.update d i ((d i).bToQ p).2)
  | .qToB i count => (.bytes ((d i).qToB count).1, Function.update d i ((d i).qToB count).2)
  | .ndflush i count => (.done, Function.update d i ((d i).ndflush count))
  | .catq i j =>
    if i = j then (.done, d)
    else (.done, Function.update (Function.update d i ((d i).catq (d j)).1) j ((d i).catq (d j)).2)

def run : List (Call ι) → (ι → Clist) → Option (List Result × (ι → Clist))
  | [], s => some ([], s)
  | c :: cs, s => (call s c).bind fun r => (run cs r.2).map fun rs => (r.1 :: rs.1, rs.2)

def runDeque : List (Call ι) → (ι → Deque) → List Result × (ι → Deque)
  | [], d => ([], d)
  | c :: cs, d => ((callDeque d c).1 :: (runDeque cs (callDeque d c).2).1, (runDeque cs (callDeque d c).2).2)

/-- The calls that go well: the bits `q_to_b` clears are there, and a list that is moved
is not the target and does not swap its quote bits away. -/
def Sane (s : ι → Clist) : Call ι → Prop
  | .qToB i count => clearFits (s i) count
  | .catq i j => (s i).cc = 0 ∨ i ≠ j ∧
    ((s j).cc = 0 → (s i).cn = (s j).cn → (s i).cq.isSome = (s j).cq.isSome)
  | _ => True

/-- Every call of a sequence is made in a state where it goes well. -/
def AllSane : List (Call ι) → (ι → Clist) → Prop
  | [], _ => True
  | c :: cs, s => Sane s c ∧ ∀ r s', call s c = some (r, s') → AllSane cs s'

theorem wf_update {s : ι → Clist} {q : Clist} (hs : ∀ i, Wf (s i)) (hq : Wf q) (i j : ι) :
    Wf (Function.update s i q j) := by
  by_cases h : j = i
  · rw [h, Function.update_self]
    exact hq
  · rw [Function.update_of_ne h]
    exact hs j

theorem abs_update (s : ι → Clist) (i : ι) (q : Clist) :
    (fun j => abs (Function.update s i q j)) = Function.update (fun j => abs (s j)) i (abs q) := by
  funext j
  by_cases h : j = i
  · rw [h, Function.update_self, Function.update_self]
  · rw [Function.update_of_ne h, Function.update_of_ne h]

/-- A call that goes well does what it should. -/
theorem call_spec {s : ι → Clist} (hs : ∀ i, Wf (s i)) (c : Call ι) (hok : Sane s c) :
    ∃ r s', call s c = some (r, s') ∧ (∀ i, Wf (s' i))
      ∧ callDeque (fun i => abs (s i)) c = (r, fun i => abs (s' i)) := by
  cases c with
  | putc c i =>
    obtain ⟨r, q, hq, hwf, hd⟩ := putc_spec c (hs i)
    refine ⟨.put r, Function.update s i q, by rw [call, hq]; rfl, wf_update hs hwf i, ?_⟩
    rw [abs_update, callDeque, hd]
  | getc i =>
    obtain ⟨r, q, hq, hwf, hd⟩ := getc_spec (hs i)
    refine ⟨.chr r, Function.update s i q, by rw [call, hq]; rfl, wf_update hs hwf i, ?_⟩
    rw [abs_update, callDeque, hd]
  | unputc i =>
    obtain ⟨r, q, hq, hwf, hd⟩ := unputc_spec (hs i)
    refine ⟨.chr r, Function.update s i q, by rw [call, hq]; rfl, wf_update hs hwf i, ?_⟩
    rw [abs_update, callDeque, hd]
  | bToQ p i =>
    obtain ⟨r, q, hq, hwf, hd⟩ := bToQ_spec p (hs i)
    refine ⟨.left r, Function.update s i q, by rw [call, hq]; rfl, wf_update hs hwf i, ?_⟩
    rw [abs_update, callDeque, hd]
  | qToB i count =>
    obtain ⟨r, q, hq, hwf, hd⟩ := qToB_spec (hs i) hok
    refine ⟨.bytes r, Function.update s i q, by rw [call, hq]; rfl, wf_update hs hwf i, ?_⟩
    rw [abs_update, callDeque, hd]
  | ndflush i count =>
    obtain ⟨q, hq, hwf, hd⟩ := ndflush_spec (hs i) count
    refine ⟨.done, Function.update s i q, by rw [call, hq]; rfl, wf_update hs hwf i, ?_⟩
    rw [abs_update, callDeque, hd]
  | catq i j =>
    by_cases hij : i = j
    · have h0 : (s i).cc = 0 := by
        obtain h0 | ⟨hne, -⟩ := hok
        · exact h0
        · exact absurd hij hne
      refine ⟨.done, s, ?_, hs, if_pos hij⟩
      rw [call, if_pos hij, if_pos h0]
    · have hquote : (s i).cc ≠ 0 → (s j).cc = 0 → (s i).cn = (s j).cn →
          (s i).cq.isSome = (s j).cq.isSome := by
        intro hne
        obtain h0 | ⟨-, hq⟩ := hok
        · exact absurd h0 hne
        · exact hq
      obtain ⟨src, dst, hq, hwf, hwf', hd⟩ := catq_spec (hs i) (hs j) hquote
      refine ⟨.done, Function.update (Function.update s i src) j dst, ?_,
        wf_update (wf_update hs hwf i) hwf' j, ?_⟩
      · rw [call, if_neg hij, hq]
        rfl
      · rw [abs_update, abs_update, callDeque, if_neg hij, hd]

theorem run_spec (cs : List (Call ι)) {s : ι → Clist} (hs : ∀ i, Wf (s i)) (hok : AllSane cs s) :
    ∃ rs s', run cs s = some (rs, s') ∧ (∀ i, Wf (s' i))
      ∧ runDeque cs (fun i => abs (s i)) = (rs, fun i => abs (s' i)) := by
  induction cs generalizing s with
  | nil => exact ⟨[], s, rfl, hs, rfl⟩
  | cons c cs ih =>
    obtain ⟨r, s₁, hc, hs₁, hd⟩ := call_spec hs c hok.1
    obtain ⟨rs, s', hrun, hs', hdrun⟩ := ih hs₁ (hok.2 r s₁ hc)
    refine ⟨r :: rs, s', ?_, hs', ?_⟩
    · rw [run, hc, Option.bind_some, hrun]
      rfl
    · rw [runDeque, hd, hdrun]

/-- The size of a deque, and whether it keeps quote flags. -/
def Deque.kind (d : Deque) : Nat × Bool := (d.cap, d.quote)

theorem Deque.putc_kind (c : Chr) (d : Deque) : (d.putc c).2.kind = d.kind := by
  unfold Deque.putc
  split <;> rfl

theorem kind_update {d : ι → Deque} {e : Deque} {i : ι} (he : e.kind = (d i).kind) (j : ι) :
    (Function.update d i e j).kind = (d j).kind := by
  by_cases h : j = i
  · rw [h, Function.update_self, he]
  · rw [Function.update_of_ne h]

theorem callDeque_kind (d : ι → Deque) (c : Call ι) (i : ι) :
    ((callDeque d c).2 i).kind = (d i).kind := by
  cases c with
  | putc c j => exact kind_update (Deque.putc_kind c (d j)) i
  | getc j | unputc j | bToQ p j | qToB j count | ndflush j count =>
    refine kind_update ?_ i
    rfl
  | catq j k =>
    by_cases hjk : j = k
    · rw [callDeque, if_pos hjk]
    · rw [callDeque, if_neg hjk, kind_update, kind_update]
      · rfl
      · rw [Function.update_of_ne fun h => hjk h.symm]
        rfl

theorem runDeque_kind (cs : List (Call ι)) (d : ι → Deque) (i : ι) :
    ((runDeque cs d).2 i).kind = (d i).kind := by
  induction cs generalizing d with
  | nil => rfl
  | cons c cs ih => exact (ih _).trans (callDeque_kind d c i)

/-- The lists as `clalloc` makes them. -/
def fresh (size : ι → Nat) (quot : ι → Bool) (i : ι) : Clist := clalloc (size i) (quot i)

/-- Whatever is called, as long as it goes well: the results and what the lists hold are those
of deques; a scan lists it; and a list that is moved where there is room for it arrives
whole. -/
theorem clists_are_deques (size : ι → Nat) (quot : ι → Bool) (cs : List (Call ι))
    (hok : AllSane cs (fresh size quot)) :
    ∃ rs s, run cs (fresh size quot) = some (rs, s)
      ∧ runDeque cs (fun i => { cap := size i, quote := quot i, items := [] })
        = (rs, fun i => { cap := size i, quote := quot i, items := contents (s i) })
      ∧ (∀ i, scan (s i) = some (contents (s i)))
      ∧ ∀ i j, i ≠ j → Sane s (.catq i j) →
        (contents (s j)).length + (contents (s i)).length ≤ size j →
        ∃ s', call s (.catq i j) = some (.done, s')
          ∧ (contents (s' j)).map Prod.fst = (contents (s j)).map Prod.fst ++ (contents (s i)).map Prod.fst := by
  have hwf : ∀ i, Wf (fresh size quot i) := fun i => wf_clalloc (size i) (quot i)
  have hfresh : (fun i => abs (fresh size quot i))
      = fun i => { cap := size i, quote := quot i, items := [] } := by
    funext i
    cases hq : quot i <;> simp [fresh, clalloc, abs, contents, hq]
  obtain ⟨rs, s, hrun, hs, hd⟩ := run_spec cs hwf hok
  rw [hfresh] at hd
  have habs : ∀ i, abs (s i) = { cap := size i, quote := quot i, items := contents (s i) } := by
    intro i
    have hkind := runDeque_kind cs (fun i => { cap := size i, quote := quot i, items := [] }) i
    rw [hd] at hkind
    have hcap : (s i).cn = size i := congrArg Prod.fst hkind
    have hquote : (s i).cq.isSome = quot i := congrArg Prod.snd hkind
    rw [abs, hcap, hquote]
  refine ⟨rs, s, hrun, ?_, fun i => scan_spec (hs i), fun i j hij hsane hroom => ?_⟩
  · rw [hd]
    exact congrArg (Prod.mk rs) (funext habs)
  · obtain ⟨r, s', hcall, -, hcd⟩ := call_spec hs (.catq i j) hsane
    rw [callDeque, if_neg hij] at hcd
    obtain rfl : Result.done = r := congrArg Prod.fst hcd
    refine ⟨s', hcall, ?_⟩
    have hj := congrArg Deque.items (congrFun (congrArg Prod.snd hcd) j)
    simp only [Function.update_self] at hj
    have hall : (contents (s i)).take (abs (s j)).room = contents (s i) := by
      rw [habs j, Deque.room, List.take_of_length_le]
      dsimp only
      omega
    have hitems : contents (s j) ++ ((contents (s i)).take (abs (s j)).room).map (abs (s j)).stored
        = contents (s' j) := hj
    rw [← hitems, hall, List.map_append, List.map_map]
    rfl

theorem clists_are_deques_pair :
    AllSane [.putc (7, true) 0, .catq 0 1] (fresh (fun _ : Fin 2 => 8) fun _ => true)
      ∧ ∃ rs s, run [.putc (7, true) 0, .catq 0 1] (fresh (fun _ : Fin 2 => 8) fun _ => true) = some (rs, s)
        ∧ ∀ i, scan (s i) = some (contents (s i)) := by
  have hok : AllSane [.putc (7, true) 0, .catq 0 1] (fresh (fun _ : Fin 2 => 8) fun _ => true) := by
    refine ⟨trivial, fun r s' hs => ⟨.inr ⟨by decide, fun _ _ => ?_⟩, fun _ _ _ => trivial⟩⟩
    obtain ⟨-, rfl⟩ := Prod.mk.injEq .. ▸ Option.some.inj hs
    rfl
  obtain ⟨rs, s, hrun, -, hscan, -⟩ := clists_are_deques _ _ _ hok
  exact ⟨hok, rs, s, hrun, hscan⟩

/-- Five bytes put into a list of eight with quote bits cannot be taken out at once: their bits
are cleared from the sixth on, in the byte after the array. -/
theorem qToB_clears_past_end :
    (run [.bToQ [1, 2, 3, 4, 5] (), .qToB () 5] (fresh (fun _ => 8) fun _ => true)).isNone = true
      ∧ (runDeque [.bToQ [1, 2, 3, 4, 5] (), .qToB () 5]
        fun _ => { cap := 8, quote := true, items := [] }).1 = [.left 0, .bytes [1, 2, 3, 4, 5]] := by
  decide

end Obsd.Tty
