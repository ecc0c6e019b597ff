import Obsd.Frag6
import Obsd.Runs

/-!
# The queues and the counters of IPv6 reassembly

A call leaves the queues as they should be unless it meets one of the
exits that forget something: a queue is counted before it is allocated, it
is linked in before its first fragment is known to go in, and fragments
thrown out by the 1st one stay counted. `Clean` says that a call meets none
of them, and in runs of clean calls the invariant holds throughout.
-/

namespace Obsd.Frag6

variable {s : State} {pre post : List Q} {q q' : Q} {p : Packet} {e : Env} {f : Asfrag}
  {frags frags' : List Asfrag}

/-! ## The invariant -/

/-- `a` begins no later than `b` and ends before it. -/
def Before (a b : Asfrag) : Prop := a.off ≤ b.off ∧ a.off + a.frglen ≤ b.off

structure QOk (q : Q) : Prop where
  nonempty : q.frags ≠ []
  sorted : q.frags.Pairwise Before
  nfrag : q.nfrag = q.frags.length

/-- The fragments that some queues count. -/
def counted (queues : List Q) : Nat := (queues.map Q.nfrag).sum

structure Inv (s : State) : Prop where
  queues : ∀ q ∈ s.queues, QOk q
  nfrags : s.nfrags = counted s.queues
  nfragpackets : s.nfragpackets = s.queues.length

theorem counted_split (pre : List Q) (q : Q) (post : List Q) :
    counted (pre ++ q :: post) = counted (pre ++ post) + q.nfrag := by
  simp only [counted, List.map_append, List.map_cons, List.sum_append, List.sum_cons]
  omega

/-- The state with the queue `q` in its place, where the rest is as it
should be and the counters count `n` fragments of `q`. -/
structure Around (s : State) (pre : List Q) (n : Nat) (post : List Q) : Prop where
  others : ∀ q ∈ pre ++ post, QOk q
  nfrags : s.nfrags = counted (pre ++ post) + n
  nfragpackets : s.nfragpackets = (pre ++ post).length + 1

theorem mem_split {x : Q} : x ∈ pre ++ q :: post ↔ x = q ∨ x ∈ pre ++ post := by
  simp only [List.mem_append, List.mem_cons]
  tauto

theorem Inv.around (h : Inv s) (hs : s.queues = pre ++ q :: post) :
    Around s pre q.nfrag post ∧ QOk q := by
  have hq := h.queues
  have hn := h.nfrags
  have hp := h.nfragpackets
  rw [hs] at hq hn hp
  refine ⟨⟨fun x hx => hq x (mem_split.mpr (.inr hx)), by rw [hn, counted_split], ?_⟩,
    hq q (mem_split.mpr (.inl rfl))⟩
  rw [hp, List.length_append, List.length_cons, List.length_append]
  rfl

/-- The queue is put back. -/
theorem Around.put (h : Around s pre q.nfrag post) (hq : QOk q) :
    Inv { s with queues := pre ++ q :: post } where
  queues := fun x hx => (mem_split.mp hx).elim (fun he => he ▸ hq) (h.others x)
  nfrags := h.nfrags.trans (counted_split pre q post).symm
  nfragpackets := by
    rw [h.nfragpackets, List.length_append, List.length_append, List.length_cons]
    rfl

/-- The queue is removed. -/
theorem Around.remove (h : Around s pre q.nfrag post) : Inv (s.remove pre q post) where
  queues := h.others
  nfrags := by
    show s.nfrags - q.nfrag = counted (pre ++ post)
    rw [h.nfrags, Nat.add_sub_cancel]
  nfragpackets := by
    show s.nfragpackets - 1 = (pre ++ post).length
    rw [h.nfragpackets, Nat.add_sub_cancel]

/-! ## Placing a fragment -/

theorem Before.trans {a b c : Asfrag} (h : Before a b) (h' : Before b c) : Before a c :=
  ⟨h.1.trans h'.1, h.2.trans h'.1⟩

theorem place_sorted (h : place frags f = some frags') (hs : frags.Pairwise Before) :
    frags'.Pairwise Before ∧ frags'.length = frags.length + 1 := by
  obtain ⟨before, hb⟩ : ∃ l, frags.takeWhile (fun g => g.off ≤ f.off) = l := ⟨_, rfl⟩
  obtain ⟨after, ha⟩ : ∃ l, frags.dropWhile (fun g => g.off ≤ f.off) = l := ⟨_, rfl⟩
  have hsplit : frags = before ++ after := by
    rw [← hb, ← ha, List.takeWhile_append_dropWhile]
  have hlow : ∀ g ∈ before, g.off ≤ f.off := by
    intro g hg
    rw [← hb] at hg
    simpa using List.mem_takeWhile_imp hg
  rw [place, hb, ha] at h
  split at h
  · cases h
  rename_i hprev
  split at h
  · cases h
  rename_i hnext
  obtain rfl := Option.some.inj h
  rw [hsplit] at hs ⊢
  obtain ⟨hbs, has, hba⟩ := List.pairwise_append.mp hs
  push Not at hprev hnext
  refine ⟨List.pairwise_append.mpr ⟨hbs, List.pairwise_cons.mpr ⟨?_, has⟩, ?_⟩, ?_⟩
  · -- the fragments behind: the first is not overlapped, the others follow it
    intro g hg
    cases after with
    | nil => cases hg
    | cons g₀ after =>
      have hhead : Before f g₀ := by
        have hle := hnext g₀ rfl
        exact ⟨by omega, hle⟩
      rcases List.mem_cons.mp hg with rfl | hg
      · exact hhead
      · exact hhead.trans ((List.pairwise_cons.mp has).1 g hg)
  · intro g hg g' hg'
    rcases List.mem_cons.mp hg' with rfl | hg'
    · -- the fragments before: the last does not overlap, the others come before it
      rcases List.eq_nil_or_concat before with rfl | ⟨before', g₀, rfl⟩
      · cases hg
      · have hlast : Before g₀ g' :=
          ⟨hlow g₀ (by simp), hprev g₀ (by simp)⟩
        rw [List.concat_eq_append] at hbs hg
        rcases List.mem_append.mp hg with hg | hg
        · exact ((List.pairwise_append.mp hbs).2.2 g hg g₀ (by simp)).trans hlast
        · exact List.mem_singleton.mp hg ▸ hlast
    · exact hba g hg g' hg'
  · simp only [List.length_append, List.length_cons]
    omega

/-- The ECN code changes no place of a fragment. -/
theorem ecn_sorted {flow : BitVec 32} (h : ecn q flow = some q') (hs : q.frags.Pairwise Before) :
    q'.frags.Pairwise Before ∧ q'.frags.length = q.frags.length ∧ q'.nfrag = q.nfrag := by
  have hset : q.setCe.frags.Pairwise Before ∧ q.setCe.frags.length = q.frags.length
      ∧ q.setCe.nfrag = q.nfrag := by
    unfold Q.setCe
    cases hfr : q.frags with
    | nil => exact ⟨.nil, rfl, rfl⟩
    | cons f rest =>
      rw [hfr] at hs
      obtain ⟨hhead, htail⟩ := List.pairwise_cons.mp hs
      exact ⟨List.pairwise_cons.mpr ⟨fun g hg => hhead g hg, htail⟩, rfl, rfl⟩
  unfold ecn at h
  dsimp only at h
  split at h
  · split at h
    · cases h
    · split at h
      · exact Option.some.inj h ▸ hset
      · exact Option.some.inj h ▸ ⟨hs, rfl, rfl⟩
  · split at h
    · cases h
    · exact Option.some.inj h ▸ ⟨hs, rfl, rfl⟩

/-! ## The calls -/

theorem finish_inv (h : Around s pre q.nfrag post) (hne : q.frags ≠ [])
    (hs : q.frags.Pairwise Before) (hn : q.frags.length = q.nfrag + 1) (delOk : Bool)
    (events : List Event) (headRead : Bool) :
    Inv (finish s pre q post delOk events headRead).s
      ∧ (finish s pre q post delOk events headRead).headRead = headRead := by
  have haround : Around { s with nfrags := s.nfrags + 1 } pre (q.nfrag + 1) post :=
    ⟨h.others, by show s.nfrags + 1 = _; rw [h.nfrags]; omega, h.nfragpackets⟩
  have hput : Inv { s with
      nfrags := s.nfrags + 1, queues := pre ++ { q with nfrag := q.nfrag + 1 } :: post } :=
    haround.put (q := { q with nfrag := q.nfrag + 1 }) ⟨hne, hs, hn.symm⟩
  have hremove : Inv (State.remove { s with nfrags := s.nfrags + 1 } pre
      { q with nfrag := q.nfrag + 1 } post) :=
    haround.remove (q := { q with nfrag := q.nfrag + 1 })
  unfold finish
  dsimp only
  split
  · split
    · exact ⟨hput, rfl⟩
    · split <;> exact ⟨hremove, rfl⟩
  · exact ⟨hput, rfl⟩

theorem record_frags (q : Q) (p : Packet) :
    (q.record p).frags = q.frags ∧ (q.record p).nfrag = q.nfrag := by
  unfold Q.record
  split <;> exact ⟨rfl, rfl⟩

/-- Nothing is thrown out if everything fits. -/
theorem purge_eq
    (hkeep : p.fragoff = 0 → ∀ f ∈ q.frags, q.unfrglen + f.off + f.frglen ≤ ipv6Maxpacket) :
    q.purge p = (q, []) := by
  unfold Q.purge
  split
  · rename_i h0
    have hall : ∀ f ∈ q.frags, ¬ (ipv6Maxpacket : Int) < q.unfrglen + f.off + f.frglen :=
      fun f hf => Int.not_lt.mpr (hkeep h0 f hf)
    have hgood : q.frags.filter (fun f => !decide ((ipv6Maxpacket : Int) <
        q.unfrglen + f.off + f.frglen)) = q.frags :=
      List.filter_eq_self.mpr fun f hf => by simp [hall f hf]
    have hbad : q.frags.filter (fun f => decide ((ipv6Maxpacket : Int) <
        q.unfrglen + f.off + f.frglen)) = [] :=
      List.filter_eq_nil_iff.mpr fun f hf => by simp [hall f hf]
    simp only [hgood, hbad, List.map_nil]
  · rfl

/-- A fragment for a queue that exists, and that throws none out. -/
theorem input_inv (h : Around s pre q.nfrag post) (hq : QOk q)
    (hkeep : p.fragoff = 0 → ∀ f ∈ q.frags,
      (q.record p).unfrglen + f.off + f.frglen ≤ ipv6Maxpacket) :
    Inv (input s pre q post false p e).s ∧ (input s pre q post false p e).headRead = false := by
  obtain ⟨hfr, hnf⟩ := record_frags q p
  have hq' : QOk (q.record p) := ⟨hfr ▸ hq.nonempty, hfr ▸ hq.sorted, by rw [hfr, hnf, hq.nfrag]⟩
  have h' : Around s pre (q.record p).nfrag post := hnf ▸ h
  have hpurge : (q.record p).purge p = (q.record p, []) :=
    purge_eq fun h0 f hf => hkeep h0 f (hfr ▸ hf)
  have hempty : (q.record p).frags.isEmpty = false := by
    rw [List.isEmpty_eq_false_iff]
    exact hq'.nonempty
  unfold input
  dsimp only
  split
  · exact ⟨h'.put hq', rfl⟩
  rw [hpurge]
  split
  · exact ⟨h'.put hq', rfl⟩
  rw [if_neg (by decide), hempty]
  split
  · exact ⟨h'.put hq', rfl⟩
  · rename_i q' hecn
    obtain ⟨hs', hlen', hnf'⟩ := ecn_sorted hecn hq'.sorted
    have h'' : Around s pre q'.nfrag post := hnf'.symm ▸ h'
    have hq'' : QOk q' :=
      ⟨fun hnil => hq'.nonempty (List.eq_nil_of_length_eq_zero (by rw [← hlen', hnil]; rfl)), hs',
        by rw [hnf', hlen', hq'.nfrag]⟩
    split
    · exact ⟨h''.put hq'', rfl⟩
    · rename_i frags hplace
      obtain ⟨hs'', hlen''⟩ := place_sorted hplace hs'
      refine finish_inv (q := { q' with frags := frags }) h'' ?_ hs'' ?_ e.delOk [] false
      · exact List.ne_nil_of_length_pos (by rw [hlen'']; omega)
      · rw [hlen'', hq''.nfrag]

/-- The fragment that makes its queue. -/
theorem input_new_inv (h : Inv s) (hbig : (p.newQ.record p).tooBig p.fragoff p.frgpartlen = false)
    (haf : e.afOk = true) :
    Inv (input { s with nfragpackets := s.nfragpackets + 1 } [] p.newQ s.queues true p e).s
      ∧ (input { s with nfragpackets := s.nfragpackets + 1 } [] p.newQ s.queues true p e).headRead
        = false := by
  obtain ⟨hfr, hnf⟩ := record_frags p.newQ p
  have hpurge : (p.newQ.record p).purge p = (p.newQ.record p, []) :=
    purge_eq fun _ f hf => absurd (hfr ▸ hf) List.not_mem_nil
  have haround : Around { s with nfragpackets := s.nfragpackets + 1 } [] (p.newQ.record p).nfrag
      s.queues :=
    ⟨h.queues, by rw [hnf]; exact h.nfrags, congrArg (· + 1) h.nfragpackets⟩
  unfold input
  dsimp only
  rw [hbig, if_neg (by decide), hpurge, if_neg (by rw [haf]; decide), if_pos rfl]
  have hone : (p.newQ.record p).frags ++ [p.asfrag] = [p.asfrag] := by
    rw [hfr]
    rfl
  refine finish_inv (q := { p.newQ.record p with frags := (p.newQ.record p).frags ++ [p.asfrag] })
    haround ?_ ?_ ?_ e.delOk [] false
  · exact List.append_ne_nil_of_right_ne_nil _ (List.cons_ne_nil _ _)
  · rw [hone]
    exact List.pairwise_singleton _ _
  · rw [hone, hnf]
    rfl

theorem findQ_split {queues : List Q} (h : findQ p queues = some (pre, q, post)) :
    queues = pre ++ q :: post := by
  induction queues generalizing pre with
  | nil => cases h
  | cons q₀ rest ih =>
    rw [findQ] at h
    split at h
    · cases h
      rfl
    · obtain ⟨⟨pre', q', post'⟩, hfound, heq⟩ := Option.map_eq_some_iff.mp h
      cases heq
      rw [ih hfound, List.cons_append]

theorem frag6Freef_inv (h : Inv s) (i : Nat) : Inv (frag6Freef s i).1 := by
  unfold frag6Freef
  split
  · exact h
  · rename_i q hq
    obtain ⟨hi, hget⟩ := List.getElem?_eq_some_iff.mp hq
    have hsplit : s.queues = s.queues.take i ++ q :: s.queues.drop (i + 1) := by
      rw [← hget, List.getElem_cons_drop, List.take_append_drop]
    exact (h.around hsplit).1.remove

/-! ## Runs -/

inductive Call where
  | input (p : Packet) (e : Env)
  | freef (i : Nat)

def step (lim : Limits) (s : State) : Call → Option State
  | .input p e => some (frag6Input lim s p e).s
  | .freef i => some (frag6Freef s i).1

def State.init : State := ⟨[], 0, 0⟩

/-- The call looks for a queue: the packet is in order and the limit on
fragments is not reached. -/
def Looks (lim : Limits) (s : State) (p : Packet) : Prop :=
  p.bad = none ∧ reached lim.maxfrags s.nfrags = false

/-- A call that makes a queue gets the queue and its fragment in, and a
1st fragment throws no other out of the queue it finds. -/
def Clean (lim : Limits) (s : State) : Call → Prop
  | .freef _ => True
  | .input p e =>
    Looks lim s p →
    (findQ p s.queues = none → reached lim.maxfragpackets s.nfragpackets = false →
      e.q6Ok = true ∧ e.afOk = true
        ∧ (p.newQ.record p).tooBig p.fragoff p.frgpartlen = false)
    ∧ ∀ pre q post, findQ p s.queues = some (pre, q, post) → p.fragoff = 0 →
      ∀ f ∈ q.frags, (q.record p).unfrglen + f.off + f.frglen ≤ ipv6Maxpacket

theorem frag6Input_inv {lim : Limits} (h : Inv s) (hok : Clean lim s (.input p e)) :
    Inv (frag6Input lim s p e).s ∧ (frag6Input lim s p e).headRead = false := by
  unfold frag6Input
  split
  · exact ⟨h, rfl⟩
  rename_i hbad
  split
  · exact ⟨h, rfl⟩
  rename_i hmax
  obtain ⟨hnew, hold⟩ := hok ⟨hbad, Bool.eq_false_iff.mpr hmax⟩
  split
  · rename_i pre q post hfind
    obtain ⟨haround, hq⟩ := h.around (findQ_split hfind)
    exact input_inv haround hq (hold pre q post hfind)
  · rename_i hfind
    split
    · exact ⟨h, rfl⟩
    rename_i hpk
    obtain ⟨hq6, haf, hbig⟩ := hnew hfind (Bool.eq_false_iff.mpr hpk)
    rw [if_neg (by rw [hq6]; decide)]
    exact input_new_inv h hbig haf

theorem step_inv {lim : Limits} {s s' : State} {c : Call} (hok : Clean lim s c)
    (hstep : step lim s c = some s') (h : Inv s) : Inv s' := by
  cases c with
  | input p e =>
    obtain rfl := Option.some.inj hstep
    exact (frag6Input_inv h hok).1
  | freef i =>
    obtain rfl := Option.some.inj hstep
    exact frag6Freef_inv h i

/-- In runs of clean calls every queue holds a fragment, its fragments are
in order and do not overlap, and the counters are right; and the next clean
call does not read a queue's head as a fragment. -/
theorem frag6_queues_counted (lim : Limits) (s : State)
    (hrun : Runs (step lim) (Clean lim) State.init s) :
    (∀ q ∈ s.queues, q.frags ≠ [] ∧ q.frags.Pairwise Before ∧ q.nfrag = q.frags.length)
    ∧ s.nfrags = (s.queues.map Q.nfrag).sum
    ∧ s.nfragpackets = s.queues.length
    ∧ ∀ p e, Clean lim s (.input p e) → (frag6Input lim s p e).headRead = false := by
  have h : Inv s := Runs.invariant (fun _ _ _ hok hst hi => step_inv hok hst hi) hrun
    ⟨nofun, rfl, rfl⟩
  exact ⟨fun q hq => ⟨(h.queues q hq).nonempty, (h.queues q hq).sorted, (h.queues q hq).nfrag⟩,
    h.nfrags, h.nfragpackets, fun p e hok => (frag6Input_inv h hok).2⟩

/-- A fragment behind `ext` bytes of extension headers. -/
def bareFragment (ext : Nat) (plen offlg : BitVec 16) (h : ext + 8 ≤ plen.toNat) : Packet :=
  { flow := 0, plen := plen, nxt := 44, hlim := 64, src := 1, dst := 2, fragNxt := 17,
    offlg := offlg, ident := 7, offset := 40 + ext, m := [], after_header := Nat.le_add_right 40 ext,
    inside := fun _ => by rw [Nat.add_assoc]; exact Nat.add_le_add_left h 40 }

def noLimits : Limits := ⟨-1, -1⟩

/-- What the fragment leaves when every allocation works. -/
def received (s : State) (p : Packet) : State := (frag6Input noLimits s p ⟨true, true, true⟩).s

/-- A first fragment makes a queue, and its call is clean. -/
theorem frag6_queues_counted_one :
    (received State.init (bareFragment 0 24 1 (by decide))).nfrags = 1
    ∧ (received State.init (bareFragment 0 24 1 (by decide))).nfrags
      = ((received State.init (bareFragment 0 24 1 (by decide))).queues.map Q.nfrag).sum :=
  ⟨by decide, (frag6_queues_counted noLimits _ (.tail .refl
    ⟨.input (bareFragment 0 24 1 (by decide)) ⟨true, true, true⟩,
      fun _ => ⟨fun _ _ => by decide, nofun⟩, rfl⟩)).2.1⟩

/-- A fragment that ends behind 65535 leaves its new queue empty, and the
next fragment of the packet reads the queue's head; a 1st fragment behind a
longer unfragmentable part throws out a stored one that stays counted; and
so does a queue that is not allocated. -/
theorem frag6_forgets :
    ((received State.init (bareFragment 0 24 0xfff8 (by decide))).queues.map Q.frags = [[]])
    ∧ ((frag6Input noLimits (received State.init (bareFragment 0 24 0xfff8 (by decide)))
      (bareFragment 0 24 1 (by decide)) ⟨true, true, true⟩).headRead = true)
    ∧ ((received (received State.init (bareFragment 0 16 0xfff0 (by decide)))
      (bareFragment 16 32 1 (by decide))).queues.map fun q => (q.nfrag, q.frags.length)) = [(2, 1)]
    ∧ (frag6Input noLimits State.init (bareFragment 0 24 1 (by decide))
      ⟨false, true, true⟩).s.nfragpackets = 1
    ∧ (frag6Input noLimits State.init (bareFragment 0 24 1 (by decide))
      ⟨false, true, true⟩).s.queues = [] := by
  decide

end Obsd.Frag6
