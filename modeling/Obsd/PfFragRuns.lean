import Obsd.PfFragQueue

/-!
# Reassembly, over any run

Any number of datagrams may be in reassembly at once, queues may expire
or be flushed for memory, and fragments of other datagrams may be
anything. The queue of one datagram, whose fragments all agree with its
payload, is in order in every state, and the packet it gives carries that
payload.
-/

namespace Obsd.PfFrag

variable {P : List UInt8}

/-- What two equal keys have in common, a third one has with both or with neither. -/
class LawfulFragCmp (κ : Type) [FragCmp κ] : Prop where
  same_congr : ∀ {a b : κ}, FragCmp.same a b = true → ∀ key : κ, FragCmp.same a key = FragCmp.same b key

theorem same_iff {a b : PfFragmentCmp} : a.same b = true ↔
    a.frId = b.frId ∧ a.frProto = b.frProto ∧ a.frSrc = b.frSrc ∧ a.frDst = b.frDst := by
  simp [PfFragmentCmp.same, and_assoc]

instance : LawfulFragCmp PfFragmentCmp where
  same_congr := by
    intro a b h key
    obtain ⟨hid, hproto, hsrc, hdst⟩ := same_iff.mp h
    show a.same key = b.same key
    unfold PfFragmentCmp.same
    rw [hid, hproto, hsrc, hdst]

section
variable {κ : Type} [FragCmp κ] {key : κ} {s : State κ}

/-- Every queue for `key` has property `Q`. -/
def AllQueues (key : κ) (Q : List PfFrent → Prop) (s : State κ) : Prop :=
  ∀ frag ∈ s.pfFragqueue, FragCmp.same frag.key key = true → Q frag.frQueue

/-- Every queue for `key` is in order. -/
def Inv (key : κ) (P : List UInt8) (s : State κ) : Prop :=
  ∀ frag ∈ s.pfFragqueue, FragCmp.same frag.key key = true → QueueOk P frag.frQueue

/-! ## Queues that go -/

section
variable {Q : List PfFrent → Prop}

theorem AllQueues.sub {s' : State κ} (hinv : AllQueues key Q s)
    (hsub : ∀ frag ∈ s'.pfFragqueue, frag ∈ s.pfFragqueue) : AllQueues key Q s' :=
  fun frag hfrag => hinv frag (hsub frag hfrag)

theorem allQueues_flushLoop (goal fuel : Nat) : ∀ s : State κ, AllQueues key Q s →
    AllQueues key Q (flushLoop goal fuel s) := by
  induction fuel with
  | zero => exact fun s hinv => hinv
  | succ fuel ih =>
    intro s hinv
    unfold flushLoop
    split_ifs
    · cases hlast : s.pfFragqueue.getLast? with
      | none => exact hinv
      | some frag => exact ih _ (hinv.sub fun _ h => List.dropLast_subset _ h)
    · exact hinv

theorem AllQueues.flush (hinv : AllQueues key Q s) : AllQueues key Q (pfFlushFragments s) :=
  allQueues_flushLoop _ _ s hinv

theorem AllQueues.flush_unless (hinv : AllQueues key Q s) (ok : Bool) :
    AllQueues key Q (if ok then s else pfFlushFragments s) := by
  split_ifs
  · exact hinv
  · exact hinv.flush

theorem allQueues_purgeLoop (expire : BitVec 32) (fuel : Nat) :
    ∀ s : State κ, AllQueues key Q s → AllQueues key Q (purgeLoop expire fuel s) := by
  induction fuel with
  | zero => exact fun s hinv => hinv
  | succ fuel ih =>
    intro s hinv
    unfold purgeLoop
    cases hlast : s.pfFragqueue.getLast? with
    | none => exact hinv
    | some frag =>
      simp only
      split_ifs
      · exact hinv
      · exact ih _ (hinv.sub fun _ h => List.dropLast_subset _ h)

/-! ## A fragment arrives -/

/-- A property of queues that a fragment of the datagram alone has, and that such a fragment
keeps when it is entered: the queue that took a fragment has it, and all the others. -/
theorem AllQueues.fillup [LawfulFragCmp κ] (hinv : AllQueues key Q s) {key' : κ} {frent : PfFrent}
    (hone : FragCmp.same key' key = true → badFragment frent = false → Q [frent])
    (henq : FragCmp.same key' key = true → badFragment frent = false → ∀ q q', Q q →
      enqueue q frent = some q' → Q q') (timeSecond : BitVec 32) (pools : Pools) :
    AllQueues key Q (pfFillupFragment s key' frent timeSecond pools).1 ∧
      ∀ frag, (pfFillupFragment s key' frent timeSecond pools).2 = .ok frag →
        FragCmp.same key' key = true → Q frag.frQueue := by
  unfold pfFillupFragment
  rcases Bool.eq_false_or_eq_true (badFragment frent) with hbad | hbad
  · rw [hbad]
    exact ⟨hinv, nofun⟩
  simp only [hbad, Bool.false_eq_true, if_false]
  cases hfind : pfFindFragment s key' timeSecond with
  | none =>
    have hs := hinv.flush_unless pools.frag1
    generalize (if pools.frag1 then s else pfFlushFragments s) = s1 at hs
    split_ifs
    · refine ⟨fun frag hfrag hsame => ?_, fun frag hfrag hsame => ?_⟩
      · rcases List.mem_cons.mp hfrag with rfl | hfrag
        · exact hone hsame hbad
        · exact hs frag hfrag hsame
      · obtain rfl := Except.ok.inj hfrag
        exact hone hsame hbad
    · exact ⟨hs, nofun⟩
  | some found =>
    obtain ⟨frag, hfrag, rfl⟩ := Option.map_eq_some_iff.mp hfind
    have hmem : frag ∈ s.pfFragqueue := List.mem_of_find?_eq_some hfrag
    have hkey : FragCmp.same frag.key key' = true :=
      List.find?_some (p := fun frag : PfFragment κ => FragCmp.same frag.key key') hfrag
    have hcongr := LawfulFragCmp.same_congr hkey key
    have hold : FragCmp.same key' key = true → Q frag.frQueue := fun hsame =>
      hinv frag hmem (hcongr.trans hsame)
    have hrest : ∀ g ∈ s.pfFragqueue.eraseP fun g => FragCmp.same g.key key',
        FragCmp.same g.key key = true → Q g.frQueue := fun g hg => hinv g (List.mem_of_mem_eraseP hg)
    simp only [List.tail_cons]
    cases hq : enqueue frag.frQueue frent with
    | none =>
      refine ⟨fun g hg hsame => ?_, nofun⟩
      rcases List.mem_cons.mp hg with rfl | hg
      · exact hold (hcongr.symm.trans hsame)
      · exact hrest g hg hsame
    | some queue =>
      have hnew : FragCmp.same key' key = true → Q queue := fun hsame =>
        henq hsame hbad _ _ (hold hsame) hq
      refine ⟨fun g hg hsame => ?_, fun g hg hsame => ?_⟩
      · rcases List.mem_cons.mp hg with rfl | hg
        · exact hnew (hcongr.symm.trans hsame)
        · exact hrest g hg hsame
      · obtain rfl := Except.ok.inj hg
        exact hnew hsame

end

/-- The queue that took the fragment, and all the others. -/
theorem fillup_ok [LawfulFragCmp κ] (hP : P.length ≤ ipMaxpacket) (hinv : Inv key P s) {key' : κ}
    {frent : PfFrent} (hagrees : FragCmp.same key' key = true → Agrees P frent) (timeSecond : BitVec 32)
    (pools : Pools) :
    Inv key P (pfFillupFragment s key' frent timeSecond pools).1 ∧
      ∀ frag, (pfFillupFragment s key' frent timeSecond pools).2 = .ok frag →
        FragCmp.same key' key = true → QueueOk P frag.frQueue := by
  refine AllQueues.fillup hinv (fun hsame hbad => ?_) (fun hsame hbad q q' hq henq => ?_) timeSecond pools
  · exact queueOk_singleton ((hagrees hsame).fits hbad) (hagrees hsame).whole
  · exact enqueue_ok hP hq ((hagrees hsame).fits hbad) (hagrees hsame).whole henq

end

section
variable {key : PfFragmentCmp} {s : State}

/-- What the verdict says about the payload. -/
def VerdictOk (P : List UInt8) : Verdict → Prop
  | .drop _ | .held => True
  | .tooBig m hdrlen => m.drop hdrlen.toNat = P
  | .complete m hdrlen ipLen => m.drop hdrlen.toNat = P ∧ ipLen.toNat = hdrlen.toNat + P.length

theorem pfReassemble_ok (hP : P.length ≤ ipMaxpacket) (hinv : Inv key P s) {m : List UInt8} {ip : Ip}
    {dir : BitVec 8} (hagrees : (keyOf ip dir).same key = true → Agrees P (frentOf m ip))
    (timeSecond : BitVec 32) (pools : Pools) :
    Inv key P (pfReassemble s m ip dir timeSecond pools).1 ∧
      ((keyOf ip dir).same key = true → VerdictOk P (pfReassemble s m ip dir timeSecond pools).2) := by
  have hs : Inv key P (if pools.frent1 then s else pfFlushFragments s) :=
    AllQueues.flush_unless hinv pools.frent1
  unfold pfReassemble
  generalize (if pools.frent1 then s else pfFlushFragments s) = s1 at hs
  rcases Bool.eq_false_or_eq_true (pools.frent1 || pools.frent2) with hpool | hpool
  swap
  · rw [hpool]
    exact ⟨hs, fun _ => trivial⟩
  simp only [hpool, Bool.not_true, Bool.false_eq_true, if_false]
  have hcreate : Inv key P { s1 with pfNfrents := s1.pfNfrents + 1 } := hs
  obtain ⟨hinv2, hqueue⟩ := fillup_ok hP hcreate hagrees timeSecond pools
  revert hinv2 hqueue
  cases pfFillupFragment { s1 with pfNfrents := s1.pfNfrents + 1 } (keyOf ip dir) (frentOf m ip) timeSecond pools with
  | mk s2 result =>
    cases result with
    | error reason => exact fun hinv2 _ => ⟨hinv2, fun _ => trivial⟩
    | ok frag =>
      intro hinv2 hqueue
      simp only
      split_ifs with hfull
      · exact ⟨hinv2, fun _ => trivial⟩
      rw [Bool.not_eq_true, Bool.not_eq_false'] at hfull
      cases hhead : frag.frQueue.head? with
      | none => exact ⟨hinv2, fun _ => trivial⟩
      | some frent =>
        cases hlast : frag.frQueue.getLast? with
        | none => exact ⟨hinv2, fun _ => trivial⟩
        | some last =>
          have htail : Inv key P
              { pfFragqueue := s2.pfFragqueue.tail, pfNfrents := s2.pfNfrents - frag.frQueue.length } :=
            AllQueues.sub hinv2 fun _ => List.mem_of_mem_tail
          simp only
          split_ifs with hbig
          · refine ⟨htail, fun hsame => ?_⟩
            exact (join_of_full hP (hqueue frag rfl hsame) hhead hlast hfull).1
          · refine ⟨htail, fun hsame => ?_⟩
            obtain ⟨hjoin, htotal, -⟩ := join_of_full hP (hqueue frag rfl hsame) hhead hlast hfull
            refine ⟨hjoin, ?_⟩
            unfold ipMaxpacket at hbig
            rw [BitVec.toNat_add, Nat.mod_eq_of_lt (by omega), htotal]

/-! ## Runs -/

/-- A fragment for `key` is one of the datagram. -/
def AgreesAct (key : PfFragmentCmp) (P : List UInt8) : Act → Prop
  | .packet m ip dir _ _ => (keyOf ip dir).same key = true → Agrees P (frentOf m ip)
  | .purge _ _ => True

theorem step_ok (hP : P.length ≤ ipMaxpacket) (s : State) (a : Act) (s' : State) (hok : AgreesAct key P a)
    (hstep : step s a = some s') (hinv : Inv key P s) : Inv key P s' := by
  cases a with
  | packet m ip dir timeSecond pools =>
    obtain rfl := Option.some.inj hstep
    exact (pfReassemble_ok hP hinv hok timeSecond pools).1
  | purge timeSecond timeout =>
    obtain rfl := Option.some.inj hstep
    exact allQueues_purgeLoop _ _ s hinv

/-- **Reassembly gives the payload.** In every state reached the queue of the datagram is
sorted, disjoint and without empty entries, all but the last with more fragments to come;
and whatever fragment of it comes next, a packet that is built carries the payload. -/
theorem pf_reassemble_runs (key : PfFragmentCmp) (P : List UInt8) (hP : P.length ≤ ipMaxpacket) (s : State)
    (hrun : Runs step (fun _ a => AgreesAct key P a) {} s) :
    (∀ frag ∈ s.pfFragqueue, frag.key.same key = true →
      (∀ e ∈ frag.frQueue, 0 < e.feLen.toNat) ∧
      frag.frQueue.Pairwise (fun a b => a.feEnd ≤ b.feOff.toNat) ∧
      ∀ pre e f post, frag.frQueue = pre ++ e :: f :: post → e.feMff = true) ∧
    ∀ m ip dir timeSecond pools, (keyOf ip dir).same key = true → Agrees P (frentOf m ip) →
      match (pfReassemble s m ip dir timeSecond pools).2 with
      | .drop _ | .held => True
      | .tooBig m hdrlen => m.drop hdrlen.toNat = P
      | .complete m hdrlen ipLen => m.drop hdrlen.toNat = P ∧ ipLen.toNat = hdrlen.toNat + P.length := by
  have hkeep : ∀ s a s', AgreesAct key P a → step s a = some s' → Inv key P s → Inv key P s' :=
    step_ok hP
  have hinv : Inv key P s := Runs.invariant hkeep hrun nofun
  refine ⟨fun frag hfrag hsame => ?_, fun m ip dir timeSecond pools hsame hagrees => ?_⟩
  · have hq := hinv frag hfrag hsame
    exact ⟨fun e he => (hq.fits e he).pos, hq.sorted, fun _ _ _ _ => mff_of_not_last hq⟩
  · have hverdict := (pfReassemble_ok hP hinv (fun _ => hagrees) timeSecond pools).2 hsame
    revert hverdict
    cases (pfReassemble s m ip dir timeSecond pools).2 <;> exact id

end

/-- A fragment of a datagram, with a header of 20 bytes. -/
def fragment (off : BitVec 16) (data : List UInt8) : List UInt8 × Ip :=
  (List.replicate 20 0 ++ data, ⟨5#4, BitVec.ofNat 16 (20 + data.length), off, 1#16, 17#8, 2#32, 3#32⟩)

/-- The later fragment came first and loses eight bytes, of its header, to the other. -/
theorem pf_reassemble_overlap :
    let last := fragment 1#16 [8, 9, 10, 11, 12, 13, 14, 15, 16, 17]
    let first := fragment 0x2000#16 [0, 1, 2, 3, 4, 5, 6, 7, 8, 9, 10, 11, 12, 13, 14, 15]
    ∃ s m, step {} (.packet last.1 last.2 1#8 0#32 {}) = some s ∧
      (pfReassemble s first.1 first.2 1#8 0#32 {}).2 = .complete m 20#16 38#16 ∧
      m.drop 20 = [0, 1, 2, 3, 4, 5, 6, 7, 8, 9, 10, 11, 12, 13, 14, 15, 16, 17] := by
  intro last first
  let P : List UInt8 := [0, 1, 2, 3, 4, 5, 6, 7, 8, 9, 10, 11, 12, 13, 14, 15, 16, 17]
  let key : PfFragmentCmp := ⟨2#32, 3#32, 1#32, 17#8, 1#8⟩
  have hlast : Agrees P (frentOf last.1 last.2) :=
    ⟨by decide, by decide, by decide, by decide, by unfold Whole; decide⟩
  have hfirst : Agrees P (frentOf first.1 first.2) :=
    ⟨by decide, by decide, by decide, by decide, by unfold Whole; decide⟩
  have hrun : Runs step (fun _ a => AgreesAct key P a) {}
      (pfReassemble {} last.1 last.2 1#8 0#32 {}).1 :=
    .single ⟨.packet last.1 last.2 1#8 0#32 {}, fun _ => hlast, rfl⟩
  refine ⟨_, List.replicate 20 0 ++ P, rfl, by decide +kernel, ?_⟩
  have hpay := (pf_reassemble_runs key P (by decide) _ hrun).2 first.1 first.2 1#8 0#32 {} (by decide) hfirst
  have hverdict : (pfReassemble (pfReassemble {} last.1 last.2 1#8 0#32 {}).1 first.1 first.2 1#8 0#32 {}).2
      = .complete (List.replicate 20 0 ++ P) 20#16 38#16 := by decide +kernel
  rw [hverdict] at hpay
  exact hpay.1

end Obsd.PfFrag
