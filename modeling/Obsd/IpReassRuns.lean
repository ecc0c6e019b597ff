import Obsd.IpReass

/-!
# Whole datagrams

Fragments that agree with the payload of a datagram, in any order, any
number of times and in any overlap, together with fragments of other
datagrams about which nothing is assumed, timeouts and memory shortage. The
queue of the datagram stays sorted and free of overlaps, `ip_frags` counts
the entries of all queues, and what comes out is the payload.
-/

namespace Obsd.IpReass

variable {P : List UInt8} {e q : Ipqent} {queue : List Ipqent} {key : Key} {s : State}

/-! ## One queue -/

/-- An entry is a piece of the payload, with its flag telling whether it is the last. -/
structure Fits (P : List UInt8) (e : Ipqent) : Prop where
  stop : e.stop ≤ P.length
  data : e.m = (P.drop e.off).take e.len
  mff : e.mff = decide (e.stop < P.length)
  front : e.off = 0 → e.front = 0

def Before (a b : Ipqent) : Prop := a.stop ≤ b.off

/-- The entries are pieces of the payload, in order, and do not overlap. -/
structure QueueOk (P : List UInt8) (queue : List Ipqent) : Prop where
  fits : ∀ e ∈ queue, Fits P e
  sorted : queue.Pairwise Before

theorem adj_off (h : Fits P e) (hP : P.length ≤ ipMaxpacket) {i : Nat} (hi : i < e.len) :
    (e.adj i).off = e.off + i := by
  have hstop := h.stop
  unfold Ipqent.stop at hstop
  unfold ipMaxpacket at hP
  exact (BitVec.toNat_ofNat _ _).trans (Nat.mod_eq_of_lt (by omega))

theorem adj_len (h : Fits P e) (hP : P.length ≤ ipMaxpacket) {i : Nat} (hi : i < e.len) :
    (e.adj i).len = e.len - i := by
  have hstop := h.stop
  unfold Ipqent.stop at hstop
  unfold ipMaxpacket at hP
  exact (BitVec.toNat_ofNat _ _).trans (Nat.mod_eq_of_lt (by omega))

theorem adj_stop (h : Fits P e) (hP : P.length ≤ ipMaxpacket) {i : Nat} (hi : i < e.len) :
    (e.adj i).stop = e.stop := by
  rw [Ipqent.stop, adj_off h hP hi, adj_len h hP hi, Ipqent.stop]
  omega

/-- What is left of a piece is a piece. -/
theorem Fits.adj (h : Fits P e) (hP : P.length ≤ ipMaxpacket) {i : Nat} (hi : i < e.len)
    (hpos : 0 < i) : Fits P (e.adj i) where
  stop := by
    rw [adj_stop h hP hi]
    exact h.stop
  data := by
    change e.m.drop i = _
    rw [adj_off h hP hi, adj_len h hP hi, h.data, List.drop_take, List.drop_drop]
  mff := by
    rw [adj_stop h hP hi]
    exact h.mff
  front h0 := by
    rw [adj_off h hP hi] at h0
    omega

/-- Trimming the fragment against the entry before it. -/
theorem trimFront_ok (hP : P.length ≤ ipMaxpacket) {p : Option Ipqent} {e' : Ipqent}
    (he : Fits P e) (h : trimFront p e = some e') :
    Fits P e' ∧ ∀ p' ∈ p, Before p' e' := by
  cases p with
  | none =>
    obtain rfl : e = e' := Option.some.inj h
    exact ⟨he, fun p' hp' => absurd hp' (Option.not_mem_none p')⟩
  | some p =>
    rw [trimFront] at h
    by_cases hover : e.off < p.stop
    · rw [if_pos hover] at h
      by_cases hall : e.len ≤ p.stop - e.off
      · rw [if_pos hall] at h
        cases h
      · rw [if_neg hall] at h
        obtain rfl := Option.some.inj h
        have hlt : p.stop - e.off < e.len := Nat.lt_of_not_le hall
        refine ⟨he.adj hP hlt (Nat.sub_pos_of_lt hover), fun p' hp' => ?_⟩
        obtain rfl : p = p' := Option.some.inj hp'
        rw [Before, adj_off he hP hlt]
        omega
    · rw [if_neg hover] at h
      obtain rfl := Option.some.inj h
      refine ⟨he, fun p' hp' => ?_⟩
      obtain rfl : p = p' := Option.some.inj hp'
      exact Nat.le_of_not_lt hover

/-- Trimming the entries after the fragment. -/
theorem trimNext_ok (hP : P.length ≤ ipMaxpacket) (after : List Ipqent) :
    (∀ q ∈ after, Fits P q) → after.Pairwise Before →
      (∀ q ∈ (trimNext e after).1, Fits P q ∧ Before e q)
        ∧ (trimNext e after).1.Pairwise Before := by
  induction after with
  | nil =>
    intro _ _
    exact ⟨fun q hq => absurd hq List.not_mem_nil, List.Pairwise.nil⟩
  | cons q after ih =>
    intro hfits hsorted
    obtain ⟨hhead, htail⟩ := List.pairwise_cons.mp hsorted
    have hq := hfits q List.mem_cons_self
    have hrest : ∀ r ∈ after, Fits P r := fun r hr => hfits r (List.mem_cons_of_mem _ hr)
    rw [trimNext]
    by_cases hover : q.off < e.stop
    · rw [if_pos hover]
      by_cases hcut : e.stop - q.off < q.len
      · rw [if_pos hcut]
        have hstop := adj_stop hq hP hcut
        have hoff := adj_off hq hP hcut
        have hbefore : Before e (q.adj (e.stop - q.off)) := by
          rw [Before, hoff]
          omega
        refine ⟨fun r hr => ?_, List.pairwise_cons.mpr ⟨fun r hr => ?_, htail⟩⟩
        · obtain rfl | hr := List.mem_cons.mp hr
          · exact ⟨hq.adj hP hcut (Nat.sub_pos_of_lt hover), hbefore⟩
          · refine ⟨hrest r hr, Nat.le_trans hbefore ?_⟩
            have hqr : q.stop ≤ r.off := hhead r hr
            rw [hoff]
            unfold Ipqent.stop at hqr hcut ⊢
            omega
        · rw [Before, hstop]
          exact hhead r hr
      · rw [if_neg hcut]
        exact ih hrest htail
    · rw [if_neg hover]
      refine ⟨fun r hr => ?_, hsorted⟩
      obtain rfl | hr := List.mem_cons.mp hr
      · exact ⟨hq, Nat.le_of_not_lt hover⟩
      · have hqr : q.stop ≤ r.off := hhead r hr
        refine ⟨hrest r hr, ?_⟩
        unfold Before Ipqent.stop at *
        omega

/-- Whatever the entries are, those that are dequeued are counted. -/
theorem trimNext_length (e : Ipqent) (after : List Ipqent) :
    (trimNext e after).1.length + (trimNext e after).2 = after.length := by
  induction after with
  | nil => rfl
  | cons q after ih =>
    rw [trimNext]
    split
    · split
      · rfl
      · rw [List.length_cons, ← ih, Nat.add_assoc]
    · rfl

theorem place_length {queue' : List Ipqent} {gone : Nat}
    (h : place queue e = some (queue', gone)) :
    queue' ≠ [] ∧ queue'.length + gone = queue.length + 1 := by
  obtain ⟨e', -, he⟩ := Option.map_eq_some_iff.mp h
  injection he with hq hgone
  subst hq hgone
  refine ⟨List.append_ne_nil_of_right_ne_nil _ (List.cons_ne_nil _ _), ?_⟩
  have hsplit := congrArg List.length
    (List.takeWhile_append_dropWhile (p := fun q => !decide (q.off > e.off)) (l := queue))
  have hnext := trimNext_length e' (queue.dropWhile fun q => !decide (q.off > e.off))
  rw [List.length_append] at hsplit
  rw [List.length_append, List.length_cons]
  omega

/-- In a sorted queue all that comes before the last entry ends before it does. -/
theorem before_of_getLast {before : List Ipqent} (hsorted : before.Pairwise Before)
    (h : ∀ p ∈ before.getLast?, Before p e) : ∀ p ∈ before, Before p e := by
  obtain rfl | ⟨init, last, hconcat⟩ := before.eq_nil_or_concat
  · exact fun p hp => absurd hp List.not_mem_nil
  · rw [List.concat_eq_append] at hconcat
    subst hconcat
    have hlast := h last List.getLast?_concat
    intro p hp
    obtain hp | hp := List.mem_append.mp hp
    · have hpl : Before p last :=
        (List.pairwise_append.mp hsorted).2.2 p hp last List.mem_cons_self
      unfold Before Ipqent.stop at *
      omega
    · obtain rfl := List.mem_singleton.mp hp
      exact hlast

/-- The fragment finds its place, and the queue stays in order. -/
theorem place_ok (hP : P.length ≤ ipMaxpacket) (hq : QueueOk P queue) (he : Fits P e)
    {queue' : List Ipqent} {gone : Nat} (h : place queue e = some (queue', gone)) :
    QueueOk P queue' := by
  obtain ⟨e', htrim, hres⟩ := Option.map_eq_some_iff.mp h
  injection hres with hqueue hgone
  subst hqueue
  have hsplit : queue.takeWhile (fun q => !decide (q.off > e.off))
      ++ queue.dropWhile (fun q => !decide (q.off > e.off)) = queue :=
    List.takeWhile_append_dropWhile
  generalize queue.takeWhile (fun q => !decide (q.off > e.off)) = before at hsplit htrim ⊢
  generalize queue.dropWhile (fun q => !decide (q.off > e.off)) = after at hsplit ⊢
  subst hsplit
  obtain ⟨hsb, hsa, hba⟩ := List.pairwise_append.mp hq.sorted
  obtain ⟨he', hlast⟩ := trimFront_ok hP he htrim
  obtain ⟨hafter, hpair⟩ := trimNext_ok (e := e') hP after
    (fun r hr => hq.fits r (List.mem_append_right _ hr)) hsa
  have hbefore := before_of_getLast hsb hlast
  refine ⟨fun r hr => ?_, List.pairwise_append.mpr
    ⟨hsb, List.pairwise_cons.mpr ⟨fun r hr => (hafter r hr).2, hpair⟩, fun a ha r hr => ?_⟩⟩
  · obtain hr | hr := List.mem_append.mp hr
    · exact hq.fits r (List.mem_append_left _ hr)
    · obtain rfl | hr := List.mem_cons.mp hr
      · exact he'
      · exact (hafter r hr).1
  · have hae := hbefore a ha
    obtain rfl | hr := List.mem_cons.mp hr
    · exact hae
    · have her := (hafter r hr).2
      unfold Before Ipqent.stop at *
      omega

/-- An entry that overlaps none goes to its place, and nothing is trimmed. -/
theorem place_between {Q₁ Q₂ : List Ipqent} (hlow : ∀ a ∈ Q₁, a.stop ≤ e.off)
    (hhigh : ∀ b ∈ Q₂, e.stop ≤ b.off ∧ e.off < b.off) :
    place (Q₁ ++ Q₂) e = some (Q₁ ++ e :: Q₂, 0) := by
  have hkeep : ∀ a ∈ Q₁, (!decide (a.off > e.off)) = true := by
    intro a ha
    have hle := hlow a ha
    unfold Ipqent.stop at hle
    rw [Bool.not_eq_true', decide_eq_false_iff_not]
    omega
  have hstop : ∀ b ∈ Q₂, (!decide (b.off > e.off)) = false := by
    intro b hb
    rw [Bool.not_eq_false', decide_eq_true_iff]
    exact (hhigh b hb).2
  have htake : (Q₁ ++ Q₂).takeWhile (fun q => !decide (q.off > e.off)) = Q₁ := by
    rw [List.takeWhile_append_of_pos hkeep]
    cases Q₂ with
    | nil => exact List.append_nil Q₁
    | cons b Q₂ =>
      rw [List.takeWhile_cons_of_neg (by rw [hstop b List.mem_cons_self]; decide), List.append_nil]
  have hdrop : (Q₁ ++ Q₂).dropWhile (fun q => !decide (q.off > e.off)) = Q₂ := by
    rw [List.dropWhile_append_of_pos hkeep]
    cases Q₂ with
    | nil => rfl
    | cons b Q₂ =>
      rw [List.dropWhile_cons_of_neg (by rw [hstop b List.mem_cons_self]; decide)]
  have hfront : trimFront Q₁.getLast? e = some e := by
    cases hlast : Q₁.getLast? with
    | none => rfl
    | some a =>
      have hle := hlow a (List.mem_of_getLast? hlast)
      rw [trimFront, if_neg (by omega)]
  have hnext : trimNext e Q₂ = (Q₂, 0) := by
    cases Q₂ with
    | nil => rfl
    | cons b Q₂ =>
      have hle := (hhigh b List.mem_cons_self).1
      rw [trimNext, if_neg (by omega)]
  rw [place, htake, hdrop, hfront, Option.map_some, hnext]

/-! ## Completion -/

/-- What the scan passes over is the payload up to where it ends. -/
theorem scan_data (queue : List Ipqent) : ∀ {next n : Nat}, (∀ e ∈ queue, Fits P e) →
    scan next queue = some n →
    next ≤ n ∧ queue.flatMap Ipqent.m = (P.drop next).take (n - next)
      ∧ ∀ l ∈ queue.getLast?, l.stop = n := by
  induction queue with
  | nil =>
    intro next n _ h
    obtain rfl : next = n := Option.some.inj h
    refine ⟨le_rfl, ?_, fun l hl => absurd hl (Option.not_mem_none l)⟩
    rw [Nat.sub_self, List.take_zero]
    rfl
  | cons q queue ih =>
    intro next n hfits h
    rw [scan] at h
    by_cases hoff : q.off = next
    · rw [if_neg (not_not_intro hoff)] at h
      obtain ⟨hle, hdata, hlast⟩ := ih (fun r hr => hfits r (List.mem_cons_of_mem _ hr)) h
      refine ⟨by omega, ?_, fun l hl => ?_⟩
      · have hsub : n - next = q.len + (n - (next + q.len)) := by omega
        rw [List.flatMap_cons, hdata, (hfits q List.mem_cons_self).data, hoff, hsub, List.take_add,
          List.drop_drop]
      · rw [List.getLast?_cons] at hl
        cases hq : queue.getLast? with
        | none =>
          rw [hq] at hl
          obtain rfl : q = l := Option.some.inj hl
          have hnil : queue = [] := List.getLast?_eq_none_iff.mp hq
          rw [hnil] at h
          have hn : next + q.len = n := Option.some.inj h
          rw [Ipqent.stop, hoff, hn]
        | some l' =>
          rw [hq] at hl
          obtain rfl : l' = l := Option.some.inj hl
          exact hlast l' hq
    · rw [if_pos hoff] at h
      cases h

/-- The packet is the datagram: its header where it belongs, the payload behind it, and
`ip_len` the length of the payload. -/
structure Whole (P : List UInt8) (m : Packet) : Prop where
  data : m.data = P
  front : m.front = 0
  len : m.ip.len.toNat = P.length
  fits : P.length + m.ip.hlen ≤ ipMaxpacket

theorem complete_ok (hq : QueueOk P queue) {m : Packet} (h : complete key queue = .done m) :
    Whole P m := by
  cases queue with
  | nil => cases h
  | cons first rest =>
    rw [complete] at h
    cases hscan : scan 0 (first :: rest) with
    | none =>
      rw [hscan] at h
      cases h
    | some next =>
      rw [hscan] at h
      dsimp only at h
      split at h
      · cases h
      · rename_i hmff
        split at h
        · cases h
        · rename_i hlong
          injection h with h
          subst h
          have hlast : (first :: rest).getLast? = some (rest.getLast?.getD first) :=
            List.getLast?_cons
          obtain ⟨-, hdata, hstop⟩ := scan_data _ hq.fits hscan
          have hfits := hq.fits _ (List.mem_of_getLast? hlast)
          have hend := hstop _ hlast
          have hfull : next = P.length := by
            have hle := hfits.stop
            have hnot := hfits.mff
            rw [Bool.not_eq_true] at hmff
            rw [hmff] at hnot
            have hge := of_decide_eq_false hnot.symm
            omega
          have hoff : first.off = 0 := by
            rw [scan] at hscan
            by_contra hne
            rw [if_pos hne] at hscan
            cases hscan
          refine ⟨?_, (hq.fits first List.mem_cons_self).front hoff, ?_, ?_⟩
          · rw [hfull, Nat.sub_zero, List.drop_zero, List.take_length] at hdata
            exact hdata
          · unfold ipMaxpacket at hlong
            rw [← hfull]
            exact (BitVec.toNat_ofNat _ _).trans (Nat.mod_eq_of_lt (by omega))
          · rw [← hfull]
            exact Nat.le_of_not_lt hlong

/-! ## All queues -/

/-- How many entries are queued. -/
def total (ipq : List Ipq) : Nat := (ipq.map fun fp => fp.fragq.length).sum

@[simp] theorem total_nil : total [] = 0 := rfl

@[simp] theorem total_cons (fp : Ipq) (ipq : List Ipq) :
    total (fp :: ipq) = fp.fragq.length + total ipq := by
  rw [total, List.map_cons, List.sum_cons, total]

@[simp] theorem total_append (ipq ipq' : List Ipq) :
    total (ipq ++ ipq') = total ipq + total ipq' := by
  rw [total, List.map_append, List.sum_append, total, total]

/-- No queue is empty, and that of the datagram is in order. -/
structure QueuesOk (key : Key) (P : List UInt8) (ipq : List Ipq) : Prop where
  nonempty : ∀ fp ∈ ipq, fp.fragq ≠ []
  order : ∀ fp ∈ ipq, fp.key = key → QueueOk P fp.fragq

structure Inv (key : Key) (P : List UInt8) (s : State) : Prop where
  counted : s.frags = total s.ipq
  queues : QueuesOk key P s.ipq

theorem QueuesOk.sub {ipq ipq' : List Ipq} (h : QueuesOk key P ipq)
    (hsub : ∀ fp ∈ ipq', fp ∈ ipq) : QueuesOk key P ipq' where
  nonempty fp hfp := h.nonempty fp (hsub fp hfp)
  order fp hfp := h.order fp (hsub fp hfp)

theorem QueuesOk.append {ipq ipq' : List Ipq} (h : QueuesOk key P ipq)
    (h' : QueuesOk key P ipq') : QueuesOk key P (ipq ++ ipq') where
  nonempty fp hfp := (List.mem_append.mp hfp).elim (h.nonempty fp) (h'.nonempty fp)
  order fp hfp := (List.mem_append.mp hfp).elim (h.order fp) (h'.order fp)

theorem QueuesOk.replace {ipq : List Ipq} (h : QueuesOk key P ipq) {key' : Key} {new : Option Ipq}
    (hnew : QueuesOk key P new.toList) : QueuesOk key P (replace key' new ipq) := by
  induction ipq with
  | nil => exact h
  | cons fp ipq ih =>
    have hrest : QueuesOk key P ipq := h.sub fun g hg => List.mem_cons_of_mem _ hg
    have hfp : QueuesOk key P [fp] :=
      h.sub fun g hg => List.mem_singleton.mp hg ▸ List.mem_cons_self
    rw [IpReass.replace]
    split
    · exact hnew.append hrest
    · exact hfp.append (ih hrest)

theorem total_replace {ipq : List Ipq} {key' : Key} {fp : Ipq} (new : Option Ipq)
    (h : ipq.find? (fun fp => fp.key = key') = some fp) :
    total (replace key' new ipq) + fp.fragq.length = total ipq + total new.toList := by
  induction ipq with
  | nil => cases h
  | cons g ipq ih =>
    rw [replace]
    by_cases hkey : g.key = key'
    · rw [List.find?_cons_of_pos (by simpa using hkey)] at h
      obtain rfl : g = fp := Option.some.inj h
      rw [if_pos hkey, total_append, total_cons]
      omega
    · rw [List.find?_cons_of_neg (by simpa using hkey)] at h
      rw [if_neg hkey, total_cons, total_cons, Nat.add_assoc, ih h, Nat.add_assoc]

/-! ## Queues that go -/

theorem freeFirst_ok (h : Inv key P s) : Inv key P (freeFirst s) := by
  obtain ⟨ipq, frags⟩ := s
  obtain ⟨hcount, hqueues⟩ := h
  cases ipq with
  | nil => exact ⟨hcount, hqueues⟩
  | cons fp rest =>
    refine ⟨?_, hqueues.sub fun g hg => List.mem_cons_of_mem _ hg⟩
    change frags = (total (fp :: rest) : Nat) at hcount
    change frags - (total [fp] : Nat) = (total rest : Nat)
    rw [hcount, total_cons, total_cons, total_nil]
    omega

theorem flushLoop_ok (maxqueue : Int) (max : Nat) : ∀ {s : State}, Inv key P s →
    Inv key P (flushLoop maxqueue max s) := by
  induction max with
  | zero => exact fun h => h
  | succ max ih =>
    intro s h
    rw [flushLoop]
    split
    · exact ih (freeFirst_ok h)
    · exact h

theorem ipDrain_ok (h : Inv key P s) : Inv key P (ipDrain s) := by
  refine ⟨?_, h.queues.sub fun g hg => absurd hg List.not_mem_nil⟩
  change s.frags - (total s.ipq : Nat) = 0
  rw [h.counted, Int.sub_self]

theorem total_filter (p : Ipq → Bool) (ipq : List Ipq) :
    total (ipq.filter p) + total (ipq.filter fun fp => !p fp) = total ipq := by
  induction ipq with
  | nil => rfl
  | cons fp ipq ih =>
    rw [List.filter_cons, List.filter_cons, total_cons, ← ih]
    cases p fp <;> simp <;> omega

theorem ipSlowtimo_ok (h : Inv key P s) : Inv key P (ipSlowtimo s) := by
  have hsame : total (s.ipq.map fun fp => { fp with ttl := fp.ttl - 1 }) = total s.ipq := by
    rw [total, total, List.map_map]
    rfl
  have hok : QueuesOk key P (s.ipq.map fun fp => { fp with ttl := fp.ttl - 1 }) := by
    refine ⟨fun fp hfp => ?_, fun fp hfp hkey => ?_⟩
    · obtain ⟨g, hg, rfl⟩ := List.mem_map.mp hfp
      exact h.queues.nonempty g hg
    · obtain ⟨g, hg, rfl⟩ := List.mem_map.mp hfp
      exact h.queues.order g hg hkey
  have hcount := h.counted
  unfold ipSlowtimo
  generalize (s.ipq.map fun fp => { fp with ttl := fp.ttl - 1 }) = ipq at hsame hok
  refine ⟨?_, hok.sub fun g hg => List.mem_of_mem_filter hg⟩
  have hpart := total_filter (fun fp : Ipq => decide (fp.ttl = 0#8)) ipq
  change s.frags - (total (ipq.filter fun fp => decide (fp.ttl = 0#8)) : Nat)
    = (total (ipq.filter fun fp => decide (fp.ttl ≠ 0#8)) : Nat)
  have hneg : (ipq.filter fun fp => decide (fp.ttl ≠ 0#8))
      = ipq.filter fun fp => !decide (fp.ttl = 0#8) := by
    refine List.filter_congr fun fp _ => ?_
    rw [decide_not]
  rw [hneg, hcount]
  omega

/-! ## A fragment arrives -/

/-- A congestion mark changes nothing but the mark. -/
theorem ecn_ok {first first' : Ipqent} {rest : List Ipqent} (h : ecn e first = some first')
    (hq : QueueOk P (first :: rest)) : QueueOk P (first' :: rest) := by
  obtain ⟨tos, rfl⟩ : ∃ tos, first' = { first with ip := { first.ip with tos := tos } } := by
    unfold ecn at h
    dsimp only at h
    split at h
    · cases h
    · split at h
      · cases h
      · split at h
        · exact ⟨_, (Option.some.inj h).symm⟩
        · exact ⟨first.ip.tos, (Option.some.inj h).symm⟩
  obtain ⟨hhead, htail⟩ := List.pairwise_cons.mp hq.sorted
  have hfirst := hq.fits first List.mem_cons_self
  refine ⟨fun r hr => ?_, List.pairwise_cons.mpr ⟨hhead, htail⟩⟩
  obtain rfl | hr := List.mem_cons.mp hr
  · exact ⟨hfirst.stop, hfirst.data, hfirst.mff, hfirst.front⟩
  · exact hq.fits r (List.mem_cons_of_mem _ hr)

theorem queueOk_singleton (h : Fits P e) : QueueOk P [e] where
  fits _ hr := List.mem_singleton.mp hr ▸ h
  sorted := List.pairwise_singleton _ _

/-- `ip_reass` returns, keeps the queues and the count, and what it returns is the
datagram. The fragment is counted before the call. -/
theorem ipReass_ok (hP : P.length ≤ ipMaxpacket) (hcount : s.frags = total s.ipq + 1)
    (hq : QueuesOk key P s.ipq) (he : e.ip.key = key → Fits P e) (fpOk : Bool) :
    ∃ s' out, ipReass s e fpOk = some (s', out) ∧ Inv key P s'
      ∧ ∀ m ∈ out, e.ip.key = key → Whole P m := by
  have hdrop : Inv key P ⟨s.ipq, s.frags - 1⟩ := by
    refine ⟨?_, hq⟩
    change s.frags - 1 = total s.ipq
    omega
  unfold ipReass
  dsimp only
  cases hfind : s.ipq.find? (fun fp => decide (fp.key = e.ip.key)) with
  | none =>
    cases fpOk with
    | false => exact ⟨_, _, rfl, hdrop, fun m hm => absurd hm (Option.not_mem_none m)⟩
    | true =>
      cases hc : complete e.ip.key [e] with
      | wait =>
        refine ⟨_, _, rfl, ⟨?_, ?_⟩, fun m hm => absurd hm (Option.not_mem_none m)⟩
        · change s.frags = ((total (⟨e.ip.key, 60#8, [e]⟩ :: s.ipq) : Nat) : Int)
          change _ = ((1 + total s.ipq : Nat) : Int)
          omega
        · have hnew : QueuesOk key P [⟨e.ip.key, 60#8, [e]⟩] := by
            refine ⟨fun g hg => ?_, fun g hg hkey => ?_⟩
            · obtain rfl := List.mem_singleton.mp hg
              exact List.cons_ne_nil _ _
            · obtain rfl := List.mem_singleton.mp hg
              exact queueOk_singleton (he hkey)
          exact hnew.append hq
      | toolong => exact ⟨_, _, rfl, hdrop, fun m hm => absurd hm (Option.not_mem_none m)⟩
      | done m =>
        refine ⟨_, _, rfl, hdrop, fun m' hm' hkey => ?_⟩
        obtain rfl : m = m' := Option.some.inj hm'
        exact complete_ok (queueOk_singleton (he hkey)) hc
  | some fp =>
    have hmem : fp ∈ s.ipq := List.mem_of_find?_eq_some hfind
    have hkey : fp.key = e.ip.key := by
      have hpos := List.find?_some hfind
      exact of_decide_eq_true hpos
    dsimp only
    cases hqueue : fp.fragq with
    | nil => exact absurd hqueue (hq.nonempty fp hmem)
    | cons first rest =>
      dsimp only
      cases hecn : ecn e first with
      | none => exact ⟨_, _, rfl, hdrop, fun m hm => absurd hm (Option.not_mem_none m)⟩
      | some first' =>
        dsimp only
        have hold : e.ip.key = key → QueueOk P (first' :: rest) := fun hk =>
          ecn_ok hecn (hqueue ▸ hq.order fp hmem (hkey.trans hk))
        have hlen : fp.fragq.length = rest.length + 1 := by
          rw [hqueue]
          rfl
        -- a queue that takes the place of `fp` is in order if its entries are
        have hput : ∀ queue : List Ipqent, queue ≠ [] → (e.ip.key = key → QueueOk P queue) →
            QueuesOk key P (some { fp with fragq := queue }).toList := by
          intro queue hne hok
          refine ⟨fun g hg => ?_, fun g hg hk => ?_⟩
          · obtain rfl := List.mem_singleton.mp hg
            exact hne
          · obtain rfl := List.mem_singleton.mp hg
            exact hok (hkey.symm.trans hk)
        cases hplace : place (first' :: rest) e with
        | none =>
          refine ⟨_, _, rfl, ⟨?_, ?_⟩, fun m hm => absurd hm (Option.not_mem_none m)⟩
          · have htotal := total_replace (some { fp with fragq := first' :: rest }) hfind
            change s.frags - 1 = ((total (replace e.ip.key _ s.ipq) : Nat) : Int)
            change _ = total s.ipq + (rest.length + 1 + 0) at htotal
            omega
          · exact hq.replace (hput _ (List.cons_ne_nil _ _) hold)
        | some placed =>
          obtain ⟨queue, gone⟩ := placed
          dsimp only
          obtain ⟨hne, hlength⟩ := place_length hplace
          rw [List.length_cons] at hlength
          have hnew : e.ip.key = key → QueueOk P queue := fun hk =>
            place_ok hP (hold hk) (he hk) hplace
          have hgone : Inv key P ⟨replace e.ip.key none s.ipq, s.frags - gone - queue.length⟩ := by
            refine ⟨?_, hq.replace ⟨fun g hg => absurd hg List.not_mem_nil,
              fun g hg => absurd hg List.not_mem_nil⟩⟩
            have htotal := total_replace none hfind
            change s.frags - gone - queue.length
              = ((total (replace e.ip.key none s.ipq) : Nat) : Int)
            rw [Option.toList_none, total_nil, hlen] at htotal
            omega
          cases hc : complete e.ip.key queue with
          | wait =>
            refine ⟨_, _, rfl, ⟨?_, ?_⟩, fun m hm => absurd hm (Option.not_mem_none m)⟩
            · have htotal := total_replace (some { fp with fragq := queue }) hfind
              change s.frags - gone = ((total (replace e.ip.key _ s.ipq) : Nat) : Int)
              change _ = total s.ipq + (queue.length + 0) at htotal
              omega
            · exact hq.replace (hput queue hne hnew)
          | toolong => exact ⟨_, _, rfl, hgone, fun m hm => absurd hm (Option.not_mem_none m)⟩
          | done m =>
            refine ⟨_, _, rfl, hgone, fun m' hm' hk => ?_⟩
            obtain rfl : m = m' := Option.some.inj hm'
            exact complete_ok (hnew hk) hc

/-! ## The caller -/

/-- `(ip_off & IP_OFFMASK) * 8`. -/
def Packet.offset (m : Packet) : Nat := m.ip.off.toNat % 2 ^ 13 * 8

/-- A packet as it comes in is a fragment of the datagram, or all of it. -/
structure Agrees (P : List UInt8) (m : Packet) : Prop where
  front : m.front = 0
  len : m.ip.len.toNat = m.ip.hlen + m.data.length
  stop : m.offset + m.data.length ≤ P.length
  data : m.data = (P.drop m.offset).take m.data.length
  mff : m.ip.off &&& ipMf ≠ 0#16 ↔ m.offset + m.data.length < P.length

theorem and_mf (x : BitVec 16) : x &&& ipMf = 0#16 ↔ x.toNat / 2 ^ 13 % 2 = 0 := by
  have hand : (x &&& ipMf).toNat = (x.toNat.testBit 13).toNat * 2 ^ 13 := by
    exact Nat.and_two_pow x.toNat 13
  rw [← BitVec.toNat_inj, hand, Nat.testBit_eq_decide_div_mod_eq]
  by_cases h : x.toNat / 2 ^ 13 % 2 = 1
  · rw [decide_eq_true h]
    exact iff_of_false (by decide) (by omega)
  · rw [decide_eq_false h]
    exact iff_of_true rfl (by omega)

theorem and_frag (x : BitVec 16) : x &&& ~~~(ipDf ||| ipRf) = 0#16 ↔ x.toNat % 2 ^ 14 = 0 := by
  have hand : (x &&& ~~~(ipDf ||| ipRf)).toNat = x.toNat % 2 ^ 14 := by
    exact Nat.and_two_pow_sub_one_eq_mod x.toNat 14
  rw [← BitVec.toNat_inj, hand]
  rfl

theorem shift_off (m : Packet) : (m.ip.off <<< 3).toNat = m.offset := by
  rw [BitVec.toNat_shiftLeft, Nat.shiftLeft_eq, Packet.offset]
  omega

theorem Ip.hlen_le (ip : Ip) : ip.hlen ≤ 60 := by
  unfold Ip.hlen
  omega

/-- The entry that is made of a fragment. -/
def entry (m : Packet) : Ipqent :=
  ⟨decide (m.ip.off &&& ipMf ≠ 0#16),
    { m.ip with len := m.ip.len - BitVec.ofNat 16 m.ip.hlen, off := m.ip.off <<< 3 }, m.front, m.data⟩

theorem Agrees.fits {m : Packet} (h : Agrees P m) : Fits P (entry m) := by
  have hlen : (entry m).len = m.data.length := by
    have hlen := h.len
    change (m.ip.len - BitVec.ofNat 16 m.ip.hlen).toNat = _
    rw [BitVec.toNat_sub, BitVec.toNat_ofNat, Nat.mod_eq_of_lt (by omega : m.ip.hlen < 2 ^ 16)]
    omega
  have hoff : (entry m).off = m.offset := shift_off m
  have hstop : (entry m).stop = m.offset + m.data.length := by rw [Ipqent.stop, hlen, hoff]
  refine ⟨hstop ▸ h.stop, ?_, ?_, fun _ => h.front⟩
  · rw [hoff, hlen]
    exact h.data
  · rw [hstop]
    exact decide_eq_decide.mpr h.mff

/-- A packet that goes on: the payload behind its header, and `ip_len` counting both. -/
structure Delivered (P : List UInt8) (m : Packet) : Prop where
  data : m.data = P
  front : m.front = 0
  len : m.ip.len.toNat = m.ip.hlen + P.length

/-- The header length, added to `ip_len`. -/
theorem Whole.delivered {m : Packet} (h : Whole P m) :
    Delivered P { m with ip := { m.ip with len := m.ip.len + BitVec.ofNat 16 m.ip.hlen } } := by
  refine ⟨h.data, h.front, ?_⟩
  have hfits := h.fits
  unfold ipMaxpacket at hfits
  change (m.ip.len + BitVec.ofNat 16 m.ip.hlen).toNat = m.ip.hlen + P.length
  rw [BitVec.toNat_add, BitVec.toNat_ofNat, h.len, Nat.mod_eq_of_lt (by omega : m.ip.hlen < 2 ^ 16),
    Nat.mod_eq_of_lt (by omega), Nat.add_comm]

theorem Agrees.whole {m : Packet} (h : Agrees P m) (h0 : m.ip.off.toNat % 2 ^ 14 = 0) :
    Delivered P m := by
  have hoff : m.offset = 0 := by
    unfold Packet.offset
    omega
  have hmf : m.ip.off &&& ipMf = 0#16 := by
    rw [and_mf]
    omega
  have hlen : m.data.length = P.length := by
    have hstop := h.stop
    have hnot : ¬ m.offset + m.data.length < P.length := fun hlt => h.mff.mpr hlt hmf
    omega
  have hdata := h.data
  rw [hoff, hlen, List.drop_zero, List.take_length] at hdata
  exact ⟨hdata, h.front, hlen ▸ h.len⟩

theorem ours_ok (hP : P.length ≤ ipMaxpacket) (maxqueue : Int) (h : Inv key P s) {m : Packet}
    (hm : m.ip.key = key → Agrees P m) (entOk fpOk : Bool) :
    ∃ s' out, ours maxqueue s m entOk fpOk = some (s', out) ∧ Inv key P s'
      ∧ ∀ m' ∈ out, m.ip.key = key → Delivered P m' := by
  have hnone : ∀ m' ∈ (none : Option Packet), m.ip.key = key → Delivered P m' :=
    fun m' hm' => absurd hm' (Option.not_mem_none m')
  unfold ours
  by_cases hfrag : m.ip.off &&& ~~~(ipDf ||| ipRf) = 0#16
  · rw [if_pos hfrag]
    refine ⟨s, some m, rfl, h, fun m' hm' hk => ?_⟩
    obtain rfl : m = m' := Option.some.inj hm'
    exact (hm hk).whole ((and_frag _).mp hfrag)
  · rw [if_neg hfrag]
    dsimp only
    split
    · exact ⟨s, none, rfl, h, hnone⟩
    · have hany : decide (m.ip.off &&& ipMf ≠ 0#16) = true ∨ m.ip.off <<< 3 ≠ 0#16 := by
        rw [and_frag] at hfrag
        rw [decide_eq_true_eq, Ne, and_mf, Ne, ← BitVec.toNat_inj, shift_off, Packet.offset]
        change _ ∨ ¬ _ = 0
        omega
      rw [if_pos hany]
      split
      · exact ⟨_, none, rfl, flushLoop_ok maxqueue 49 h, hnone⟩
      · cases entOk with
        | false => exact ⟨s, none, rfl, h, hnone⟩
        | true =>
          have hcount : (⟨s.ipq, s.frags + 1⟩ : State).frags = total s.ipq + 1 := by
            rw [h.counted]
          obtain ⟨s', out, hres, hinv, hout⟩ := ipReass_ok (s := ⟨s.ipq, s.frags + 1⟩)
            (e := entry m) hP hcount h.queues (fun hk => (hm hk).fits) fpOk
          refine ⟨s', _, congrArg (Option.map _) hres, hinv, fun m' hm' hk => ?_⟩
          obtain ⟨m₀, hm₀, rfl⟩ := Option.map_eq_some_iff.mp hm'
          exact (hout m₀ hm₀ hk).delivered

/-! ## Any order of fragments -/

inductive Act where
  | frag (m : Packet) (entOk fpOk : Bool)
  | slowtimo
  | drain

def step (maxqueue : Int) (s : State) : Act → Option State
  | .frag m entOk fpOk => (ours maxqueue s m entOk fpOk).map Prod.fst
  | .slowtimo => some (ipSlowtimo s)
  | .drain => some (ipDrain s)

/-- The packets with the key of the datagram agree with its payload. -/
def AgreesAct (key : Key) (P : List UInt8) : Act → Prop
  | .frag m _ _ => m.ip.key = key → Agrees P m
  | .slowtimo | .drain => True

theorem step_ok (hP : P.length ≤ ipMaxpacket) (maxqueue : Int) {s' : State} {a : Act}
    (ha : AgreesAct key P a) (hstep : step maxqueue s a = some s') (h : Inv key P s) :
    Inv key P s' := by
  cases a with
  | frag m entOk fpOk =>
    obtain ⟨s₁, out, hres, hinv, -⟩ := ours_ok hP maxqueue h ha entOk fpOk
    rw [step, hres] at hstep
    obtain rfl : s₁ = s' := Option.some.inj hstep
    exact hinv
  | slowtimo =>
    obtain rfl : ipSlowtimo s = s' := Option.some.inj hstep
    exact ipSlowtimo_ok h
  | drain =>
    obtain rfl : ipDrain s = s' := Option.some.inj hstep
    exact ipDrain_ok h

/-- Whatever has arrived, in whatever order: the queue of the datagram is sorted and its
entries are disjoint, and `ip_frags` is the number of entries in all queues. A call of
`ip_reass` returns with that kept, and if it returns a packet, that is the payload, with its
length in `ip_len`; `ipv4_input` adds the length of the header. -/
theorem ip_reass_runs (key : Key) (P : List UInt8) (hP : P.length + 20 ≤ ipMaxpacket)
    (maxqueue : Int) (s : State) (h : Runs (step maxqueue) (fun _ a => AgreesAct key P a) {} s) :
    (∀ fp ∈ s.ipq, fp.key = key → fp.fragq.Pairwise Before)
      ∧ s.frags = total s.ipq
      ∧ (∀ e fpOk, (e.ip.key = key → Fits P e) → ∃ s' out,
          ipReass ⟨s.ipq, s.frags + 1⟩ e fpOk = some (s', out) ∧ s'.frags = total s'.ipq
            ∧ (∀ fp ∈ s'.ipq, fp.key = key → fp.fragq.Pairwise Before)
            ∧ ∀ m ∈ out, e.ip.key = key →
                m.data = P ∧ m.front = 0 ∧ m.ip.len.toNat = P.length)
      ∧ ∀ m entOk fpOk, (m.ip.key = key → Agrees P m) → ∃ s' out,
          ours maxqueue s m entOk fpOk = some (s', out)
            ∧ ∀ m' ∈ out, m.ip.key = key →
                m'.data = P ∧ m'.front = 0 ∧ m'.ip.len.toNat = m'.ip.hlen + P.length := by
  have hP' : P.length ≤ ipMaxpacket := by omega
  have hstep : ∀ (s : State) (a : Act) (s' : State), AgreesAct key P a →
      step maxqueue s a = some s' → Inv key P s → Inv key P s' :=
    fun s a s' ha hs hinv => step_ok hP' maxqueue ha hs hinv
  have hend := Runs.invariant hstep h
  have hinv := hend ⟨rfl, ⟨fun fp hfp => absurd hfp List.not_mem_nil,
    fun fp hfp => absurd hfp List.not_mem_nil⟩⟩
  have hcount : (⟨s.ipq, s.frags + 1⟩ : State).frags = total s.ipq + 1 := by
    rw [hinv.counted]
  refine ⟨fun fp hfp hk => (hinv.queues.order fp hfp hk).sorted, hinv.counted,
    fun e fpOk he => ?_, fun m entOk fpOk hm => ?_⟩
  · obtain ⟨s', out, hres, hinv', hout⟩ := ipReass_ok hP' hcount hinv.queues he fpOk
    refine ⟨s', out, hres, hinv'.counted, fun fp hfp hk => (hinv'.queues.order fp hfp hk).sorted,
      fun m hm hk => ?_⟩
    have hwhole := hout m hm hk
    exact ⟨hwhole.data, hwhole.front, hwhole.len⟩
  · obtain ⟨s', out, hres, -, hout⟩ := ours_ok hP' maxqueue hinv hm entOk fpOk
    refine ⟨s', out, hres, fun m' hm' hk => ?_⟩
    have hdel := hout m' hm' hk
    exact ⟨hdel.data, hdel.front, hdel.len⟩

/-- A datagram of sixteen bytes, for the runs below. -/
def sixteen : List UInt8 := [0, 1, 2, 3, 4, 5, 6, 7, 8, 9, 10, 11, 12, 13, 14, 15]

/-- A fragment of it, in eights. -/
def fragment (off : Nat) (mf : BitVec 16) (data : List UInt8) : Packet :=
  ⟨⟨5#4, 0#8, BitVec.ofNat 16 (20 + data.length), 7#16, BitVec.ofNat 16 off ||| mf, 17#8, 1#32, 2#32⟩,
    0, data⟩

def lastEight : Packet := fragment 1 0#16 (sixteen.drop 8)

def firstEight : Packet := fragment 0 ipMf (sixteen.take 8)

theorem lastEight_run : Runs (step 300) (fun _ a => AgreesAct lastEight.ip.key sixteen a) {}
    ⟨[⟨lastEight.ip.key, 60#8, [entry lastEight]⟩], 1⟩ := by
  refine .single ⟨.frag lastEight true true, fun _ => ?_, rfl⟩
  exact ⟨rfl, rfl, by decide, rfl, by decide⟩

/-- The second half has arrived, and the first completes the datagram. -/
theorem ip_reass_runs_halves : ∃ s' m,
    ours 300 ⟨[⟨lastEight.ip.key, 60#8, [entry lastEight]⟩], 1⟩ firstEight true true
        = some (s', some m)
      ∧ m.data = sixteen ∧ m.ip.len.toNat = m.ip.hlen + sixteen.length := by
  have hruns := ip_reass_runs lastEight.ip.key sixteen (by decide) 300 _ lastEight_run
  have hagrees : firstEight.ip.key = lastEight.ip.key → Agrees sixteen firstEight :=
    fun _ => ⟨rfl, rfl, by decide, rfl, by decide⟩
  obtain ⟨s', out, hres, hout⟩ := hruns.2.2.2 firstEight true true hagrees
  have hdone : out.isSome = true := by
    have hsome : ((ours 300 ⟨[⟨lastEight.ip.key, 60#8, [entry lastEight]⟩], 1⟩ firstEight
      true true).bind Prod.snd).isSome = true := by decide
    rw [hres] at hsome
    exact hsome
  obtain ⟨m, rfl⟩ := Option.isSome_iff_exists.mp hdone
  obtain ⟨hdata, -, hlen⟩ := hout m rfl rfl
  exact ⟨s', m, hres, hdata, hlen⟩

/-- What `ip_reass` itself returns has the length of the payload alone in `ip_len`. -/
theorem reass_len_without_header : ∃ s s' m,
    Runs (step 300) (fun _ a => AgreesAct lastEight.ip.key sixteen a) {} s
      ∧ Fits sixteen (entry firstEight)
      ∧ ipReass ⟨s.ipq, s.frags + 1⟩ (entry firstEight) true = some (s', some m)
      ∧ m.data = sixteen ∧ m.ip.len.toNat = 16 ∧ m.ip.hlen + sixteen.length = 36 := by
  refine ⟨_, ⟨[], 0⟩, ⟨⟨5#4, 0#8, 16#16, 7#16, 0#16, 17#8, 1#32, 2#32⟩, 0, sixteen⟩,
    lastEight_run, ?_, rfl, rfl, rfl, rfl⟩
  exact Agrees.fits ⟨rfl, rfl, by decide, rfl, by decide⟩

end Obsd.IpReass
