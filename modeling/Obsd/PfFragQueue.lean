import Obsd.PfFrag

/-!
# Queues of fragments of one datagram

Fragments that agree with a payload keep their queue in order
(`QueueOk`): sorted, disjoint, no entry empty, each with its piece of the
payload behind the header. An entry that is cut in front loses bytes of
its header first, and the join then strips as many of the data; what is
left behind `fe_hdrlen` bytes is right all the same. The first entry is
never cut, and its header becomes that of the packet. The sum of lengths
that `pf_isfull_fragment` compares cannot be right by accident
(`join_of_full`).
-/

namespace Obsd.PfFrag

variable {P : List UInt8}

/-! ## Entries -/

/-- The entry is a piece of the payload `P`. -/
structure Fits (P : List UInt8) (e : PfFrent) : Prop where
  pos : 0 < e.feLen.toNat
  le : e.feEnd ≤ P.length
  mff : e.feMff = decide (e.feEnd < P.length)
  data : e.feM.drop e.feHdrlen.toNat = (P.drop e.feOff.toNat).take e.feLen.toNat

/-- Nothing was cut from it. -/
def Whole (e : PfFrent) : Prop := e.feM.length = e.feHdrlen.toNat + e.feLen.toNat

/-- The fragment, as it arrives, is one of a datagram with payload `P`. -/
structure Agrees (P : List UInt8) (e : PfFrent) : Prop where
  le : e.feEnd ≤ P.length
  mff : e.feMff = decide (e.feEnd < P.length)
  aligned : e.feMff = true → e.feLen.toNat % 8 = 0
  data : e.feM.drop e.feHdrlen.toNat = (P.drop e.feOff.toNat).take e.feLen.toNat
  whole : Whole e

theorem Agrees.fits {e : PfFrent} (h : Agrees P e) (hbad : badFragment e = false) : Fits P e := by
  refine ⟨Nat.pos_of_ne_zero fun hzero => ?_, h.le, h.mff, h.data⟩
  have hlen : e.feLen = 0#16 := BitVec.eq_of_toNat_eq hzero
  simp [badFragment, hlen] at hbad

section Cut
variable {e : PfFrent} {n : BitVec 16}

theorem cut_feOff (h : Fits P e) (hP : P.length ≤ ipMaxpacket) (hn : n < e.feLen) :
    (e.cut n).feOff.toNat = e.feOff.toNat + n.toNat := by
  have hle := h.le
  have hlt : n.toNat < e.feLen.toNat := hn
  unfold ipMaxpacket at hP
  unfold PfFrent.feEnd at hle
  show (e.feOff + n).toNat = _
  rw [BitVec.toNat_add, Nat.mod_eq_of_lt (by omega)]

theorem cut_feLen (hn : n < e.feLen) : (e.cut n).feLen.toNat = e.feLen.toNat - n.toNat :=
  BitVec.toNat_sub_of_le (BitVec.le_of_lt hn)

theorem cut_feEnd (h : Fits P e) (hP : P.length ≤ ipMaxpacket) (hn : n < e.feLen) :
    (e.cut n).feEnd = e.feEnd := by
  have hlt : n.toNat < e.feLen.toNat := hn
  unfold PfFrent.feEnd
  rw [cut_feOff h hP hn, cut_feLen hn]
  omega

/-- Header or data, what is cut in front does not show behind `fe_hdrlen` bytes. -/
theorem Fits.cut (h : Fits P e) (hP : P.length ≤ ipMaxpacket) (hn : n < e.feLen) : Fits P (e.cut n) := by
  have hlt : n.toNat < e.feLen.toNat := hn
  refine ⟨?_, ?_, ?_, ?_⟩
  · rw [cut_feLen hn]
    omega
  · rw [cut_feEnd h hP hn]
    exact h.le
  · rw [cut_feEnd h hP hn]
    exact h.mff
  · rw [cut_feOff h hP hn, cut_feLen hn]
    calc (e.feM.drop n.toNat).drop e.feHdrlen.toNat
        = (e.feM.drop e.feHdrlen.toNat).drop n.toNat := by
          rw [List.drop_drop, List.drop_drop, Nat.add_comm]
      _ = ((P.drop e.feOff.toNat).take e.feLen.toNat).drop n.toNat := by rw [h.data]
      _ = (P.drop (e.feOff.toNat + n.toNat)).take (e.feLen.toNat - n.toNat) := by
          rw [List.drop_take, List.drop_drop]

end Cut

/-! ## Queues -/

/-- One entry ends before the other begins. -/
def Before (a b : PfFrent) : Prop := a.feEnd ≤ b.feOff.toNat

structure QueueOk (P : List UInt8) (q : List PfFrent) : Prop where
  fits : ∀ e ∈ q, Fits P e
  sorted : q.Pairwise Before
  whole : ∀ e, q.head? = some e → Whole e

/-- What is left of the later entries comes behind the new one. -/
theorem aftercut_ok (hP : P.length ≤ ipMaxpacket) {frent : PfFrent} (hf : Fits P frent) :
    ∀ after : List PfFrent, (∀ e ∈ after, Fits P e) → after.Pairwise Before →
      (∀ e ∈ aftercut frent after, Fits P e ∧ Before frent e) ∧ (aftercut frent after).Pairwise Before := by
  intro after
  induction after with
  | nil => exact fun _ _ => ⟨nofun, .nil⟩
  | cons a next ih =>
    intro hfits hsorted
    obtain ⟨hnext, hsorted'⟩ := List.pairwise_cons.mp hsorted
    have ha := hfits a List.mem_cons_self
    have hfits' : ∀ e ∈ next, Fits P e := fun e he => hfits e (List.mem_cons_of_mem a he)
    unfold aftercut
    simp only
    split_ifs with hover hpart
    · -- the rest of it begins where the new one ends
      have hend := hf.le
      unfold ipMaxpacket at hP
      have hcut : (BitVec.ofNat 16 (frent.feEnd - a.feOff.toNat)).toNat = frent.feEnd - a.feOff.toNat := by
        rw [BitVec.toNat_ofNat, Nat.mod_eq_of_lt (by omega)]
      have hoff := cut_feOff ha hP hpart
      have hlt : (BitVec.ofNat 16 (frent.feEnd - a.feOff.toNat)).toNat < a.feLen.toNat := hpart
      constructor
      · intro e he
        rcases List.mem_cons.mp he with rfl | he
        · refine ⟨ha.cut hP hpart, ?_⟩
          unfold Before
          omega
        · refine ⟨hfits' e he, ?_⟩
          have hbefore : a.feEnd ≤ e.feOff.toNat := hnext e he
          unfold Before
          unfold PfFrent.feEnd at hbefore
          omega
      · refine List.pairwise_cons.mpr ⟨fun e he => ?_, hsorted'⟩
        unfold Before
        rw [cut_feEnd ha hP hpart]
        exact hnext e he
    · exact ih hfits' hsorted'
    · refine ⟨fun e he => ⟨hfits e he, ?_⟩, hsorted⟩
      have hfa : frent.feEnd ≤ a.feOff.toNat := Nat.le_of_not_lt hover
      rcases List.mem_cons.mp he with rfl | he
      · exact hfa
      · have hbefore : a.feEnd ≤ e.feOff.toNat := hnext e he
        unfold Before
        unfold PfFrent.feEnd at hbefore
        omega

/-- The new entry begins behind the one before it. -/
theorem precut_ok (hP : P.length ≤ ipMaxpacket) {prev : Option PfFrent} {frent frent' : PfFrent}
    (hf : Fits P frent) (hprev : ∀ e, prev = some e → Fits P e)
    (h : precut prev frent = some frent') :
    Fits P frent' ∧ (∀ e, prev = some e → Before e frent') ∧ (prev = none → frent' = frent) := by
  unfold precut at h
  cases prev with
  | none =>
    obtain rfl : frent = frent' := Option.some.inj h
    exact ⟨hf, nofun, fun _ => rfl⟩
  | some prev =>
    have hend := (hprev prev rfl).le
    simp only at h
    split_ifs at h with hover hnone
    · obtain rfl := Option.some.inj h
      have hcut : (BitVec.ofNat 16 (prev.feEnd - frent.feOff.toNat)).toNat
          = prev.feEnd - frent.feOff.toNat := by
        unfold ipMaxpacket at hP
        rw [BitVec.toNat_ofNat, Nat.mod_eq_of_lt (by omega)]
      have hlt : BitVec.ofNat 16 (prev.feEnd - frent.feOff.toNat) < frent.feLen :=
        BitVec.not_le.mp hnone
      refine ⟨hf.cut hP hlt, ?_, nofun⟩
      rintro e he
      obtain rfl := Option.some.inj he
      unfold Before
      rw [cut_feOff hf hP hlt]
      omega
    · obtain rfl := Option.some.inj h
      refine ⟨hf, ?_, nofun⟩
      rintro e he
      obtain rfl := Option.some.inj he
      exact Nat.le_of_not_lt hover

/-- In a sorted queue all that comes before the last entry ends before it does. -/
theorem before_of_getLast {q : List PfFrent} {prev frent : PfFrent} (hfits : ∀ e ∈ q, Fits P e)
    (hsorted : q.Pairwise Before) (hlast : q.getLast? = some prev) (hprev : Before prev frent) :
    ∀ e ∈ q, Before e frent := by
  obtain ⟨l, rfl⟩ := List.getLast?_eq_some_iff.mp hlast
  intro e he
  rcases List.mem_append.mp he with he | he
  · have hbefore : e.feEnd ≤ prev.feOff.toNat :=
      (List.pairwise_append.mp hsorted).2.2 e he prev List.mem_cons_self
    have hend : prev.feOff.toNat ≤ prev.feEnd := Nat.le_add_right _ _
    exact Nat.le_trans hbefore (Nat.le_trans hend hprev)
  · obtain rfl := List.mem_singleton.mp he
    exact hprev

theorem enqueue_ok (hP : P.length ≤ ipMaxpacket) {q q' : List PfFrent} {frent : PfFrent}
    (hq : QueueOk P q) (hf : Fits P frent) (hwhole : Whole frent) (h : enqueue q frent = some q') :
    QueueOk P q' := by
  unfold enqueue at h
  cases hlast : q.getLast? with
  | none =>
    rw [hlast] at h
    cases h
  | some last =>
    rw [hlast] at h
    simp only at h
    split_ifs at h
    obtain ⟨frent', hcut, rfl⟩ := Option.map_eq_some_iff.mp h
    -- the queue falls into what begins no later than the new entry, and the rest
    have hsplit : (q.takeWhile fun e => !decide (e.feOff > frent.feOff))
        ++ (q.dropWhile fun e => !decide (e.feOff > frent.feOff)) = q := List.takeWhile_append_dropWhile
    generalize q.takeWhile (fun e => !decide (e.feOff > frent.feOff)) = before at hsplit hcut ⊢
    generalize q.dropWhile (fun e => !decide (e.feOff > frent.feOff)) = after at hsplit ⊢
    obtain ⟨hfits, hsorted, hhead⟩ := hq
    subst hsplit
    obtain ⟨hsb, hsa, hba⟩ := List.pairwise_append.mp hsorted
    have hfb : ∀ e ∈ before, Fits P e := fun e he => hfits e (List.mem_append_left _ he)
    have hfa : ∀ e ∈ after, Fits P e := fun e he => hfits e (List.mem_append_right _ he)
    obtain ⟨hf', hprev, hnone⟩ := precut_ok hP hf
      (fun e he => hfb e (List.mem_of_getLast? he)) hcut
    obtain ⟨hafter, hsafter⟩ := aftercut_ok hP hf' after hfa hsa
    have hbefore : ∀ e ∈ before, Before e frent' := by
      intro e he
      cases hgl : before.getLast? with
      | none =>
        rw [List.getLast?_eq_none_iff.mp hgl] at he
        cases he
      | some prev => exact before_of_getLast hfb hsb hgl (hprev prev hgl) e he
    constructor
    case fits =>
      intro e he
      rcases List.mem_append.mp he with he | he
      · exact hfb e he
      · rcases List.mem_cons.mp he with rfl | he
        · exact hf'
        · exact (hafter e he).1
    case sorted =>
      refine List.pairwise_append.mpr ⟨hsb, List.pairwise_cons.mpr ⟨fun e he => (hafter e he).2, hsafter⟩, ?_⟩
      intro a ha e he
      have haf := hbefore a ha
      rcases List.mem_cons.mp he with rfl | he
      · exact haf
      · have hend : frent'.feOff.toNat ≤ frent'.feEnd := Nat.le_add_right _ _
        exact Nat.le_trans haf (Nat.le_trans hend (hafter e he).2)
    case whole =>
      intro e he
      cases before with
      | nil =>
        obtain rfl := Option.some.inj he
        rw [hnone rfl]
        exact hwhole
      | cons b before => exact hhead e he

theorem queueOk_singleton {frent : PfFrent} (hf : Fits P frent) (hwhole : Whole frent) :
    QueueOk P [frent] where
  fits := by
    intro e he
    obtain rfl := List.mem_singleton.mp he
    exact hf
  sorted := List.pairwise_singleton _ _
  whole := by
    intro e he
    obtain rfl := Option.some.inj he
    exact hwhole

/-- All but the last entry have more fragments behind them. -/
theorem mff_of_not_last {q pre post : List PfFrent} {e f : PfFrent} (hq : QueueOk P q)
    (h : q = pre ++ e :: f :: post) : e.feMff = true := by
  subst h
  have he : e ∈ pre ++ e :: f :: post := by simp
  have hf : f ∈ pre ++ e :: f :: post := by simp
  have hbefore : e.feEnd ≤ f.feOff.toNat :=
    (List.pairwise_cons.mp (List.pairwise_append.mp hq.sorted).2.1).1 f List.mem_cons_self
  obtain ⟨hpos, hle, -, -⟩ := hq.fits f hf
  rw [(hq.fits e he).mff, decide_eq_true_eq]
  unfold PfFrent.feEnd at hle
  omega

/-! ## Complete queues -/

/-- The loop adds up lengths; by induction over the entries the sum is where the entry
begins, or the loop fails. -/
theorem join_of_fullLoop (hP : P.length ≤ ipMaxpacket) {total : BitVec 16} (htotal : total.toNat = P.length) :
    ∀ (q : List PfFrent) (off : BitVec 16), (∀ e ∈ q, Fits P e) → q.Pairwise Before →
      (∀ e, q.head? = some e → off.toNat ≤ e.feOff.toNat) →
      (∀ e, q.getLast? = some e → e.feEnd = P.length) → q ≠ [] → fullLoop total off q = true →
      (q.flatMap fun e => e.feM.drop e.feHdrlen.toNat) = P.drop off.toNat := by
  intro q
  induction q with
  | nil => exact fun _ _ _ _ _ hne _ => absurd rfl hne
  | cons e next ih =>
    intro off hfits hsorted hhead hlast _ hfull
    obtain ⟨hnext, hsorted'⟩ := List.pairwise_cons.mp hsorted
    have he := hfits e List.mem_cons_self
    have hfits' : ∀ f ∈ next, Fits P f := fun f hf => hfits f (List.mem_cons_of_mem e hf)
    have hoff := hhead e rfl
    have hle : e.feOff.toNat + e.feLen.toNat ≤ P.length := he.le
    have hsum : (off + e.feLen).toNat = off.toNat + e.feLen.toNat := by
      rw [BitVec.toNat_add, Nat.mod_eq_of_lt (by omega)]
    unfold fullLoop at hfull
    simp only at hfull
    split_ifs at hfull with hmiss
    have hnot : off.toNat + e.feLen.toNat < P.length →
        next.head?.map PfFrent.feOff = some (off + e.feLen) := by
      intro hlt
      by_contra hne
      refine hmiss ⟨?_, hne⟩
      show (off + e.feLen).toNat < total.toNat
      omega
    have hpiece : (P.drop off.toNat).take e.feLen.toNat ++ P.drop (off + e.feLen).toNat
        = P.drop off.toNat := by
      rw [hsum, ← List.drop_drop, List.take_append_drop]
    cases next with
    | nil =>
      have hend : e.feOff.toNat + e.feLen.toNat = P.length := hlast e rfl
      have hoff' : e.feOff.toNat = off.toNat := by
        rcases Nat.lt_or_ge (off.toNat + e.feLen.toNat) P.length with hlt | hge
        · cases hnot hlt
        · omega
      have hrest : P.drop (off + e.feLen).toNat = [] := List.drop_eq_nil_of_le (by omega)
      rw [hrest] at hpiece
      rw [List.flatMap_cons, List.flatMap_nil, he.data, hoff', hpiece]
    | cons f next =>
      have hf := hfits' f List.mem_cons_self
      have hbefore : e.feOff.toNat + e.feLen.toNat ≤ f.feOff.toNat := hnext f List.mem_cons_self
      have hfle : f.feOff.toNat + f.feLen.toNat ≤ P.length := hf.le
      have hfpos := hf.pos
      have hfoff : f.feOff = off + e.feLen := Option.some.inj (hnot (by omega))
      have hfoff' : f.feOff.toNat = off.toNat + e.feLen.toNat := by rw [hfoff, hsum]
      have hoff' : e.feOff.toNat = off.toNat := by omega
      have hhead' : ∀ g, (f :: next).head? = some g → (off + e.feLen).toNat ≤ g.feOff.toNat := by
        intro g hg
        obtain rfl : f = g := Option.some.inj hg
        exact Nat.le_of_eq (congrArg BitVec.toNat hfoff.symm)
      have hlast' : ∀ g, (f :: next).getLast? = some g → g.feEnd = P.length := by
        intro g hg
        exact hlast g (by exact hg)
      have hrest := ih (off + e.feLen) hfits' hsorted' hhead' hlast' (List.cons_ne_nil _ _) hfull
      rw [List.flatMap_cons, hrest, he.data, hoff', hpiece]

/-- **A complete queue joins to the payload**, behind the header of its first entry. -/
theorem join_of_full (hP : P.length ≤ ipMaxpacket) {q : List PfFrent} {frent last : PfFrent}
    (hq : QueueOk P q) (hhead : q.head? = some frent) (hlast : q.getLast? = some last)
    (hfull : pfIsfullFragment q = true) :
    (pfJoinFragment q).drop frent.feHdrlen.toNat = P ∧ (last.feOff + last.feLen).toNat = P.length
      ∧ (pfJoinFragment q).take frent.feHdrlen.toNat = frent.feM.take frent.feHdrlen.toNat := by
  obtain ⟨hfits, hsorted, hwhole⟩ := hq
  have hfl := hfits last (List.mem_of_getLast? hlast)
  have hsum : (last.feOff + last.feLen).toNat = last.feEnd := by
    have hle : last.feOff.toNat + last.feLen.toNat ≤ P.length := hfl.le
    unfold ipMaxpacket at hP
    rw [BitVec.toNat_add, Nat.mod_eq_of_lt (by omega)]
    rfl
  unfold pfIsfullFragment at hfull
  rw [hlast] at hfull
  simp only at hfull
  split_ifs at hfull with hmff
  have hend : last.feEnd = P.length := by
    have hle := hfl.le
    have hm := hfl.mff
    rw [Bool.eq_false_iff.mpr hmff] at hm
    have : ¬last.feEnd < P.length := of_decide_eq_false hm.symm
    omega
  have htotal : (last.feOff + last.feLen).toNat = P.length := hsum.trans hend
  cases q with
  | nil => cases hhead
  | cons e next =>
    obtain rfl : e = frent := Option.some.inj hhead
    have hjoin := join_of_fullLoop hP htotal (e :: next) 0#16 hfits hsorted (fun _ _ => Nat.zero_le _)
      (fun f hf => by
        obtain rfl := Option.some.inj (hlast.symm.trans hf)
        exact hend)
      (List.cons_ne_nil _ _) hfull
    have hlen : e.feHdrlen.toNat ≤ e.feM.length := by
      rw [hwhole e rfl]
      exact Nat.le_add_right _ _
    refine ⟨?_, htotal, ?_⟩
    · show (e.feM ++ _).drop e.feHdrlen.toNat = P
      rw [List.drop_append_of_le_length hlen]
      exact hjoin
    · show (e.feM ++ _).take e.feHdrlen.toNat = _
      rw [List.take_append_of_le_length hlen]

end Obsd.PfFrag
