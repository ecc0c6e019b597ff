import Obsd.PfFragRuns

/-!
# Reassembly of IPv6 fragments

`pf_reassemble6` of `net/pf_norm.c`. The header of the packet that is put
together is that of the first entry in the queue, without its fragment
header, and its protocol goes into the next-header field of the last
header before that. Where that header is, however, is taken from the
fragment that happened to complete the datagram; the packet is right if
the two agree on it (`pf_reassemble6_runs`).

Of a fragment, `pf_normalize_ip6` passes the offset of the last extension
header, or 0, and the length of all headers with the fragment header. What
the allocations answer is part of a request.
-/

namespace Obsd.PfFrag

/-! ## Data -/

/-- A `struct pf_fragment_cmp` of family `AF_INET6`. -/
structure PfFragmentCmp6 where
  frSrc : BitVec 128
  frDst : BitVec 128
  frId : BitVec 32
  frProto : BitVec 8
  frDirection : BitVec 8
deriving DecidableEq, Repr

instance : FragCmp PfFragmentCmp6 where
  same a b := decide (a.frId = b.frId) && decide (a.frProto = b.frProto) && decide (a.frSrc = b.frSrc)
    && decide (a.frDst = b.frDst)

instance : LawfulFragCmp PfFragmentCmp6 where
  same_congr := by
    intro a b h key
    simp only [FragCmp.same, Bool.and_eq_true, decide_eq_true_eq] at h
    obtain ⟨⟨⟨hid, hproto⟩, hsrc⟩, hdst⟩ := h
    simp only [FragCmp.same, hid, hproto, hsrc, hdst]

/-- The IPv6 header of a fragment, in host byte order. -/
structure Ip6 where
  ip6Plen : BitVec 16
  ip6Src : BitVec 128
  ip6Dst : BitVec 128
deriving DecidableEq, Repr

/-- Its fragment header; the next header is read from the mbuf. -/
structure Ip6Frag where
  ip6fOfflg : BitVec 16
  ip6fIdent : BitVec 32
deriving DecidableEq, Repr

/-- A `struct pf_fragment_tag`. -/
structure PfFragmentTag where
  ftHdrlen : BitVec 16
  ftExtoff : BitVec 16
  ftMaxlen : BitVec 16
deriving DecidableEq, Repr

def ip6HdrSize : Nat := 40
def ip6FragSize : Nat := 8

/-- The offset of `ip6_nxt` in the header. -/
def ip6NxtOffset : Nat := 6

/-- What the pools answer, `frag6_deletefraghdr` and `m_tag_get`. -/
structure Env6 where
  pools : Pools := {}
  delOk : Bool := true
  tagOk : Bool := true
deriving DecidableEq, Repr

inductive Verdict6 where
  | drop (reason : Reason)
  | held
  /-- `PF_DROP` for lack of memory, or as the packet is too big, of the mbuf that was joined. -/
  | fail (m : List UInt8)
  /-- "short mbuf chain". -/
  | panic
  | complete (m : List UInt8) (tag : PfFragmentTag)
deriving DecidableEq, Repr

/-! ## The function -/

def frentOf6 (m : List UInt8) (ip6 : Ip6) (fraghdr : Ip6Frag) (hdrlen extoff : BitVec 16) : PfFrent where
  feM := m
  feHdrlen := hdrlen
  feExtoff := extoff
  feLen := BitVec.ofNat 16 ip6HdrSize + ip6.ip6Plen - hdrlen
  feOff := fraghdr.ip6fOfflg &&& 0xfff8#16
  feMff := decide (fraghdr.ip6fOfflg &&& 1#16 ≠ 0#16)

/-- Only the first fragment's protocol is relevant. -/
def keyOf6 (ip6 : Ip6) (fraghdr : Ip6Frag) (dir : BitVec 8) : PfFragmentCmp6 :=
  ⟨ip6.ip6Src, ip6.ip6Dst, fraghdr.ip6fIdent, 0#8, dir⟩

/-- `m_getptr`: at the end of the chain it still gives a place. -/
def mGetptr (m : List UInt8) (loc : Nat) : Option Nat := if loc ≤ m.length then some loc else none

/-- `ip6_plen`, in network order. -/
def writePlen (m : List UInt8) (plen : BitVec 16) : List UInt8 :=
  (m.set 4 (UInt8.ofNat (plen.toNat / 256))).set 5 (UInt8.ofNat (plen.toNat % 256))

/-- The protocol is written into the last extension header, or the IPv6 header. -/
def writeNxt (m : List UInt8) (extoff : BitVec 16) (proto : UInt8) : Option (List UInt8) :=
  if extoff ≠ 0#16 then (mGetptr m extoff.toNat).map fun off => m.set off proto
  else some (m.set ip6NxtOffset proto)

/-- A complete queue, whose first entry is `frent` and last one `last`. -/
def finish6 (queue : List PfFrent) (frent last : PfFrent) (extoff maxlen : BitVec 16) (env : Env6) :
    Verdict6 :=
  let total := last.feOff + last.feLen
  let hdrlen := frent.feHdrlen - BitVec.ofNat 16 ip6FragSize
  let m := pfJoinFragment queue
  match mGetptr m hdrlen.toNat with
  | none => .panic
  | some off =>
    let proto := m.getD off 0
    if !env.delOk then .fail m
    else
      let m := m.take hdrlen.toNat ++ m.drop (hdrlen.toNat + ip6FragSize)
      if !env.tagOk then .fail m
      else
        let plen := hdrlen.toNat - ip6HdrSize + total.toNat
        match writeNxt (writePlen m (BitVec.ofNat 16 plen)) extoff proto with
        | none => .panic
        | some m =>
          if plen > ipMaxpacket then .fail (writePlen m 0#16)
          else .complete m ⟨hdrlen, extoff, maxlen⟩

/-- `pf_create_fragment` and `pf_fillup_fragment`. -/
def fillup6 (s : State PfFragmentCmp6) (key : PfFragmentCmp6) (frent : PfFrent) (timeSecond : BitVec 32)
    (pools : Pools) : State PfFragmentCmp6 × Except Reason (PfFragment PfFragmentCmp6) :=
  let s := if pools.frent1 then s else pfFlushFragments s
  if !(pools.frent1 || pools.frent2) then (s, .error .memory)
  else pfFillupFragment { s with pfNfrents := s.pfNfrents + 1 } key frent timeSecond pools

/-- `pf_reassemble6`. The `fe_extoff` it reads is that of the entry it made itself. -/
def pfReassemble6 (s : State PfFragmentCmp6) (m : List UInt8) (ip6 : Ip6) (fraghdr : Ip6Frag)
    (hdrlen extoff : BitVec 16) (dir : BitVec 8) (timeSecond : BitVec 32) (env : Env6) :
    State PfFragmentCmp6 × Verdict6 :=
  let frent := frentOf6 m ip6 fraghdr hdrlen extoff
  match fillup6 s (keyOf6 ip6 fraghdr dir) frent timeSecond env.pools with
  | (s, .error reason) => (s, .drop reason)
  | (s, .ok frag) =>
    if !pfIsfullFragment frag.frQueue then (s, .held)
    else
      match frag.frQueue.head?, frag.frQueue.getLast? with
      | some first, some last =>
        ({ pfFragqueue := s.pfFragqueue.tail, pfNfrents := s.pfNfrents - frag.frQueue.length },
          finish6 frag.frQueue first last frent.feExtoff frag.frMaxlen env)
      | _, _ => (s, .held)

/-- The first entry of the queue that has the fragment. -/
def firstOf6 (s : State PfFragmentCmp6) (key : PfFragmentCmp6) (frent : PfFrent) (timeSecond : BitVec 32)
    (pools : Pools) : Option PfFrent :=
  match (fillup6 s key frent timeSecond pools).2 with
  | .error _ => none
  | .ok frag => frag.frQueue.head?

inductive Act6 where
  | packet (m : List UInt8) (ip6 : Ip6) (fraghdr : Ip6Frag) (hdrlen extoff : BitVec 16) (dir : BitVec 8)
      (timeSecond : BitVec 32) (env : Env6)
  | purge (timeSecond timeout : BitVec 32)
deriving DecidableEq, Repr

def step6 (s : State PfFragmentCmp6) : Act6 → Option (State PfFragmentCmp6)
  | .packet m ip6 fraghdr hdrlen extoff dir timeSecond env =>
    some (pfReassemble6 s m ip6 fraghdr hdrlen extoff dir timeSecond env).1
  | .purge timeSecond timeout => some (pfPurgeExpiredFragments s timeSecond timeout)

/-! ## What the packet should be -/

/-- Where the next-header field of the last header is. -/
def nxtOffset (extoff : BitVec 16) : Nat := if extoff ≠ 0#16 then extoff.toNat else ip6NxtOffset

/-- The headers as `pf_normalize_ip6` goes by them: extension headers of at least eight bytes,
the fragment header, all of them in the mbuf. -/
structure Parsed (e : PfFrent) : Prop where
  hdrlen : ip6HdrSize + ip6FragSize ≤ e.feHdrlen.toNat
  extoff : e.feExtoff ≠ 0#16 →
    ip6HdrSize ≤ e.feExtoff.toNat ∧ e.feExtoff.toNat + 8 + ip6FragSize ≤ e.feHdrlen.toNat

/-- The length of the unfragmentable part. -/
def PfFrent.unfrglen (e : PfFrent) : Nat := e.feHdrlen.toNat - ip6FragSize

/-- The protocol in the fragment header. -/
def PfFrent.proto (e : PfFrent) : UInt8 := e.feM.getD e.unfrglen 0

/-- The unfragmentable part of `first` and the payload, with the length in the header. -/
def headed (first : PfFrent) (P : List UInt8) : List UInt8 :=
  writePlen (first.feM.take first.unfrglen) (BitVec.ofNat 16 (first.unfrglen - ip6HdrSize + P.length)) ++ P

/-- The packet: the first fragment's unfragmentable part, with the protocol of its fragment
header in the last header of that part, and the payload. -/
def packetOf (first : PfFrent) (P : List UInt8) : List UInt8 :=
  (writePlen (first.feM.take first.unfrglen)
    (BitVec.ofNat 16 (first.unfrglen - ip6HdrSize + P.length))).set (nxtOffset first.feExtoff) first.proto ++ P

/-- The extension header at `extoff` is the last one of `first`, or nothing is changed by
taking it for that. -/
def Hits (first : PfFrent) (P : List UInt8) (extoff : BitVec 16) : Prop :=
  nxtOffset extoff = nxtOffset first.feExtoff ∨
    ((headed first P)[nxtOffset first.feExtoff]? = some first.proto ∧
      ((headed first P)[nxtOffset extoff]? = some first.proto ∨ nxtOffset extoff = (headed first P).length))

/-! ## Writing into the headers -/

section
variable {m u P : List UInt8} {first last frent : PfFrent} {q q' : List PfFrent}

theorem length_writePlen (m : List UInt8) (plen : BitVec 16) : (writePlen m plen).length = m.length := by
  simp [writePlen]

theorem writePlen_append (hu : 6 ≤ u.length) (plen : BitVec 16) :
    writePlen (u ++ P) plen = writePlen u plen ++ P := by
  unfold writePlen
  rw [List.set_append_left _ _ (by omega), List.set_append_left _ _ (by rw [List.length_set]; omega)]

/-- Two places for one value. -/
theorem set_eq_set_iff {i j : Nat} {v : UInt8} (hj : j < m.length) (hi : i ≤ m.length) :
    m.set i v = m.set j v ↔ i = j ∨ (m[j]? = some v ∧ (m[i]? = some v ∨ i = m.length)) := by
  constructor
  · intro h
    by_cases hij : i = j
    · exact .inl hij
    · refine .inr ⟨?_, ?_⟩
      · have hget := congrArg (fun l : List UInt8 => l[j]?) h
        simpa [List.getElem?_set_ne hij, List.getElem?_set_self hj] using hget
      · rcases Nat.lt_or_ge i m.length with hlt | hge
        · have hget := congrArg (fun l : List UInt8 => l[i]?) h
          simp only [List.getElem?_set_self hlt, List.getElem?_set_ne (Ne.symm hij)] at hget
          exact .inl hget.symm
        · exact .inr (by omega)
  · rintro (rfl | ⟨hvj, hvi⟩)
    · rfl
    · have hkeep : ∀ k, m[k]? = some v → m.set k v = m := by
        intro k hk
        obtain ⟨hlt, hget⟩ := List.getElem?_eq_some_iff.mp hk
        rw [← hget, List.set_getElem_self]
      rw [hkeep j hvj]
      rcases hvi with hvi | rfl
      · exact hkeep i hvi
      · exact List.set_eq_of_length_le le_rfl

/-! ## The first entry -/

/-- A fragment becomes the first entry as it is, or the first entry stays. -/
theorem enqueue_head (h : enqueue q frent = some q') :
    q'.head? = some frent ∨ q'.head? = q.head? := by
  unfold enqueue at h
  cases hlast : q.getLast? with
  | none =>
    rw [hlast] at h
    cases h
  | some last =>
    rw [hlast] at h
    simp only at h
    split_ifs at h
    obtain ⟨frent', hcut, rfl⟩ := Option.map_eq_some_iff.mp h
    have hsplit : (q.takeWhile fun e => !decide (e.feOff > frent.feOff))
        ++ (q.dropWhile fun e => !decide (e.feOff > frent.feOff)) = q := List.takeWhile_append_dropWhile
    generalize q.takeWhile (fun e => !decide (e.feOff > frent.feOff)) = before at hsplit hcut ⊢
    cases before with
    | nil =>
      obtain rfl : frent = frent' := Option.some.inj hcut
      exact .inl rfl
    | cons b before =>
      rw [← hsplit]
      exact .inr rfl

/-- A complete queue begins with the payload. -/
theorem head_of_full (hP : P.length ≤ ipMaxpacket) (hq : QueueOk P q) (hhead : q.head? = some first)
    (hfull : pfIsfullFragment q = true) : first.feOff = 0#16 := by
  cases q with
  | nil => cases hhead
  | cons e next =>
    obtain rfl : e = first := Option.some.inj hhead
    cases hlast : (e :: next).getLast? with
    | none => cases hlast
    | some last =>
      obtain ⟨-, htotal, -⟩ := join_of_full hP hq rfl hlast hfull
      have hle : e.feOff.toNat + e.feLen.toNat ≤ P.length := (hq.fits e List.mem_cons_self).le
      have hzero : (0#16 + e.feLen).toNat = e.feLen.toNat := by rw [BitVec.zero_add]
      unfold pfIsfullFragment at hfull
      rw [hlast] at hfull
      simp only at hfull
      split_ifs at hfull
      unfold fullLoop at hfull
      simp only at hfull
      split_ifs at hfull with hmiss
      refine BitVec.eq_of_toNat_eq ?_
      show e.feOff.toNat = 0
      by_contra hne
      refine hmiss ⟨?_, ?_⟩
      · show (0#16 + e.feLen).toNat < (last.feOff + last.feLen).toNat
        omega
      · cases next with
        | nil => simp
        | cons f next =>
          intro hsome
          have hf : f.feOff = 0#16 + e.feLen := Option.some.inj hsome
          have hbefore : e.feOff.toNat + e.feLen.toNat ≤ f.feOff.toNat :=
            (List.pairwise_cons.mp hq.sorted).1 f List.mem_cons_self
          rw [hf, hzero] at hbefore
          omega

/-! ## A complete queue -/

/-- What is joined, seen from the first entry. -/
theorem join_parts (hP : P.length ≤ ipMaxpacket) (hq : QueueOk P q) (hpar : Parsed first)
    (hhead : q.head? = some first) (hlast : q.getLast? = some last) (hfull : pfIsfullFragment q = true) :
    (pfJoinFragment q).getD first.unfrglen 0 = first.proto
      ∧ (pfJoinFragment q).take first.unfrglen ++ (pfJoinFragment q).drop (first.unfrglen + ip6FragSize)
        = first.feM.take first.unfrglen ++ P
      ∧ first.unfrglen ≤ (pfJoinFragment q).length ∧ (last.feOff + last.feLen).toNat = P.length
      ∧ first.feHdrlen.toNat ≤ first.feM.length := by
  obtain ⟨hdrop, htotal, htake⟩ := join_of_full hP hq hhead hlast hfull
  have hlen : first.feHdrlen.toNat ≤ first.feM.length := by
    rw [hq.whole first hhead]
    exact Nat.le_add_right _ _
  have hpar' := hpar.hdrlen
  unfold ip6HdrSize ip6FragSize at hpar'
  have hu : first.unfrglen + ip6FragSize = first.feHdrlen.toNat := by
    unfold PfFrent.unfrglen ip6FragSize
    omega
  have hlt : first.unfrglen < first.feHdrlen.toNat := by
    unfold ip6FragSize at hu
    omega
  have hjoin : first.feHdrlen.toNat ≤ (pfJoinFragment q).length := by
    have htl := congrArg List.length htake
    rw [List.length_take, List.length_take] at htl
    omega
  refine ⟨?_, ?_, by omega, htotal, hlen⟩
  · have hget := congrArg (fun l : List UInt8 => l[first.unfrglen]?) htake
    simp only [List.getElem?_take, hlt, if_true] at hget
    rw [PfFrent.proto, List.getD_eq_getElem?_getD, List.getD_eq_getElem?_getD, hget]
  · rw [hu, hdrop]
    congr 1
    have htt := congrArg (List.take first.unfrglen) htake
    rw [List.take_take, List.take_take, Nat.min_eq_left (by omega)] at htt
    exact htt

theorem nxtOffset_lt (hpar : Parsed first) : nxtOffset first.feExtoff < first.unfrglen := by
  have hlen := hpar.hdrlen
  unfold nxtOffset PfFrent.unfrglen ip6NxtOffset
  unfold ip6HdrSize ip6FragSize at *
  split_ifs with hext
  · have hoff := (hpar.extoff hext).2
    unfold ip6FragSize at hoff
    omega
  · omega

/-- **The packet of a complete queue** is the right one if the protocol is written where the
first fragment has its last header. -/
theorem finish6_spec (hP : P.length ≤ ipMaxpacket) (hq : QueueOk P q) (hpar : Parsed first)
    (hhead : q.head? = some first) (hlast : q.getLast? = some last) (hfull : pfIsfullFragment q = true)
    (extoff maxlen : BitVec 16) (env : Env6) :
    match finish6 q first last extoff maxlen env with
    | .complete m _ => m = packetOf first P ↔ Hits first P extoff
    | .panic => ¬Hits first P extoff
    | _ => True := by
  obtain ⟨hproto, hparts, hlen, htotal, hm⟩ := join_parts hP hq hpar hhead hlast hfull
  have hpar' := hpar.hdrlen
  have hsub : (first.feHdrlen - BitVec.ofNat 16 ip6FragSize).toNat = first.unfrglen := by
    unfold ip6HdrSize ip6FragSize at hpar'
    exact BitVec.toNat_sub_of_le (show (8#16).toNat ≤ first.feHdrlen.toNat by
      rw [BitVec.toNat_ofNat]
      omega)
  have hu : (first.feM.take first.unfrglen).length = first.unfrglen := by
    rw [List.length_take, Nat.min_eq_left (by unfold PfFrent.unfrglen; omega)]
  have hu6 : 6 ≤ (first.feM.take first.unfrglen).length := by
    rw [hu]
    unfold PfFrent.unfrglen ip6FragSize
    unfold ip6HdrSize ip6FragSize at hpar'
    omega
  have hheaded : writePlen (first.feM.take first.unfrglen ++ P)
      (BitVec.ofNat 16 (first.unfrglen - ip6HdrSize + P.length)) = headed first P :=
    writePlen_append hu6 _
  have hpos := nxtOffset_lt hpar
  have hlong : (headed first P).length = first.unfrglen + P.length := by
    rw [headed, List.length_append, length_writePlen, hu]
  have hpacket : packetOf first P = (headed first P).set (nxtOffset first.feExtoff) first.proto := by
    rw [headed, List.set_append_left _ _ (by rw [length_writePlen, hu]; exact hpos)]
    rfl
  unfold finish6
  simp only [hsub]
  rw [mGetptr, if_pos hlen]
  simp only [hproto, hparts, htotal, hheaded]
  obtain ⟨pools, delOk, tagOk⟩ := env
  cases delOk with
  | false => trivial
  | true =>
  cases tagOk with
  | false => trivial
  | true =>
    have hwrite : writeNxt (headed first P) extoff first.proto =
        if nxtOffset extoff ≤ (headed first P).length
        then some ((headed first P).set (nxtOffset extoff) first.proto) else none := by
      unfold writeNxt nxtOffset mGetptr
      by_cases hext : extoff ≠ 0#16
      · split_ifs <;> rfl
      · rw [if_neg hext, if_neg hext, if_pos (by rw [hlong, ip6NxtOffset]; omega)]
    simp only [Bool.not_true, Bool.false_eq_true, if_false]
    rw [hwrite]
    by_cases hle : nxtOffset extoff ≤ (headed first P).length
    · split_ifs
      · trivial
      · simp only
        rw [hpacket, set_eq_set_iff (by omega) hle]
        rfl
    · rw [if_neg hle]
      rintro (heq | ⟨-, hget | hend⟩)
      · omega
      · rw [List.getElem?_eq_none (by omega)] at hget
        cases hget
      · omega

end

/-! ## Runs -/

/-- The fragments `F` are of a datagram with payload `P`. -/
structure Fragments (P : List UInt8) (F : PfFrent → Prop) : Prop where
  agrees : ∀ e, F e → Agrees P e
  parsed : ∀ e, F e → Parsed e

/-- The queue is in order, and its first entry is a fragment as it came. -/
structure Queue6Ok (P : List UInt8) (F : PfFrent → Prop) (q : List PfFrent) : Prop where
  ok : QueueOk P q
  first : ∀ e, q.head? = some e → F e

section
variable {P : List UInt8} {F : PfFrent → Prop} {key key' : PfFragmentCmp6} {s : State PfFragmentCmp6}
  {frent : PfFrent}

theorem fillup6_ok (hP : P.length ≤ ipMaxpacket) (hF : Fragments P F)
    (hinv : AllQueues key (Queue6Ok P F) s) (hfrag : FragCmp.same key' key = true → F frent)
    (timeSecond : BitVec 32) (pools : Pools) :
    AllQueues key (Queue6Ok P F) (fillup6 s key' frent timeSecond pools).1 ∧
      ∀ frag, (fillup6 s key' frent timeSecond pools).2 = .ok frag →
        FragCmp.same key' key = true → Queue6Ok P F frag.frQueue := by
  have hs := hinv.flush_unless pools.frent1
  unfold fillup6
  generalize (if pools.frent1 then s else pfFlushFragments s) = s1 at hs
  split_ifs
  · exact ⟨hs, nofun⟩
  have hcreate : AllQueues key (Queue6Ok P F) { s1 with pfNfrents := s1.pfNfrents + 1 } := hs
  refine hcreate.fillup (fun hsame hbad => ?_) (fun hsame hbad q q' hq henq => ?_) timeSecond pools
  · have hagrees := hF.agrees frent (hfrag hsame)
    refine ⟨queueOk_singleton (hagrees.fits hbad) hagrees.whole, fun e he => ?_⟩
    obtain rfl := Option.some.inj he
    exact hfrag hsame
  · have hagrees := hF.agrees frent (hfrag hsame)
    refine ⟨enqueue_ok hP hq.ok (hagrees.fits hbad) hagrees.whole henq, fun e he => ?_⟩
    rcases enqueue_head henq with hnew | hold
    · rw [hnew] at he
      obtain rfl := Option.some.inj he
      exact hfrag hsame
    · exact hq.first e (hold ▸ he)

/-- What a call says about the datagram of `key`. -/
def Verdict6Ok (P : List UInt8) (F : PfFrent → Prop) (first : Option PfFrent) (extoff : BitVec 16) :
    Verdict6 → Prop
  | .complete m _ => ∃ e, first = some e ∧ F e ∧ e.feOff = 0#16 ∧ (m = packetOf e P ↔ Hits e P extoff)
  | .panic => ∃ e, first = some e ∧ F e ∧ e.feOff = 0#16 ∧ ¬Hits e P extoff
  | .drop _ | .held | .fail _ => True

theorem pfReassemble6_ok (hP : P.length ≤ ipMaxpacket) (hF : Fragments P F)
    (hinv : AllQueues key (Queue6Ok P F) s) {m : List UInt8} {ip6 : Ip6} {fraghdr : Ip6Frag}
    {hdrlen extoff : BitVec 16} {dir : BitVec 8}
    (hfrag : FragCmp.same (keyOf6 ip6 fraghdr dir) key = true → F (frentOf6 m ip6 fraghdr hdrlen extoff))
    (timeSecond : BitVec 32) (env : Env6) :
    AllQueues key (Queue6Ok P F) (pfReassemble6 s m ip6 fraghdr hdrlen extoff dir timeSecond env).1 ∧
      (FragCmp.same (keyOf6 ip6 fraghdr dir) key = true → Verdict6Ok P F
        (firstOf6 s (keyOf6 ip6 fraghdr dir) (frentOf6 m ip6 fraghdr hdrlen extoff) timeSecond env.pools)
        extoff (pfReassemble6 s m ip6 fraghdr hdrlen extoff dir timeSecond env).2) := by
  obtain ⟨hinv2, hqueue⟩ := fillup6_ok hP hF hinv hfrag timeSecond env.pools
  unfold pfReassemble6 firstOf6
  simp only
  revert hinv2 hqueue
  cases fillup6 s (keyOf6 ip6 fraghdr dir) (frentOf6 m ip6 fraghdr hdrlen extoff) timeSecond env.pools with
  | mk s2 result =>
    cases result with
    | error reason => exact fun hinv2 _ => ⟨hinv2, fun _ => trivial⟩
    | ok frag =>
      intro hinv2 hqueue
      simp only
      split_ifs with hfull
      · exact ⟨hinv2, fun _ => trivial⟩
      rw [Bool.not_eq_true, Bool.not_eq_false'] at hfull
      cases hhead : frag.frQueue.head? with
      | none => exact ⟨hinv2, fun _ => trivial⟩
      | some first =>
        cases hlast : frag.frQueue.getLast? with
        | none => exact ⟨hinv2, fun _ => trivial⟩
        | some last =>
          refine ⟨hinv2.sub fun _ => List.mem_of_mem_tail, fun hsame => ?_⟩
          have hq := hqueue frag rfl hsame
          have hfirst := hq.first first hhead
          have hzero := head_of_full hP hq.ok hhead hfull
          have hspec := finish6_spec hP hq.ok (hF.parsed first hfirst) hhead hlast hfull
            (frentOf6 m ip6 fraghdr hdrlen extoff).feExtoff frag.frMaxlen env
          revert hspec
          simp only
          cases finish6 frag.frQueue first last (frentOf6 m ip6 fraghdr hdrlen extoff).feExtoff
              frag.frMaxlen env with
          | complete m' tag => exact fun hspec => ⟨first, rfl, hfirst, hzero, hspec⟩
          | panic => exact fun hspec => ⟨first, rfl, hfirst, hzero, hspec⟩
          | drop reason => exact fun _ => trivial
          | held => exact fun _ => trivial
          | fail m' => exact fun _ => trivial

/-- A fragment for `key` is one of `F`. -/
def FragAct6 (key : PfFragmentCmp6) (F : PfFrent → Prop) : Act6 → Prop
  | .packet m ip6 fraghdr hdrlen extoff dir _ _ =>
    FragCmp.same (keyOf6 ip6 fraghdr dir) key = true → F (frentOf6 m ip6 fraghdr hdrlen extoff)
  | .purge _ _ => True

theorem step6_ok (hP : P.length ≤ ipMaxpacket) (hF : Fragments P F) (s : State PfFragmentCmp6) (a : Act6)
    (s' : State PfFragmentCmp6) (hok : FragAct6 key F a) (hstep : step6 s a = some s')
    (hinv : AllQueues key (Queue6Ok P F) s) : AllQueues key (Queue6Ok P F) s' := by
  cases a with
  | packet m ip6 fraghdr hdrlen extoff dir timeSecond env =>
    obtain rfl := Option.some.inj hstep
    exact (pfReassemble6_ok hP hF hinv hok timeSecond env).1
  | purge timeSecond timeout =>
    obtain rfl := Option.some.inj hstep
    exact allQueues_purgeLoop _ _ s hinv

end

/-- **What `pf_reassemble6` makes of a datagram.** Its fragments `F` may come in any order, and
any of them may have extension headers of its own. In every state reached and for whatever
fragment comes next, a packet that is built is the one of the first entry in the queue, a
fragment at offset 0, exactly if that entry has its last extension header where the fragment
that came last has it, or that makes no difference; and if it is not there the mbuf may be too
short, which is a panic. -/
theorem pf_reassemble6_runs (key : PfFragmentCmp6) (P : List UInt8) (hP : P.length ≤ ipMaxpacket)
    (F : PfFrent → Prop) (hF : Fragments P F) (s : State PfFragmentCmp6)
    (hrun : Runs step6 (fun _ a => FragAct6 key F a) {} s) :
    ∀ m ip6 fraghdr hdrlen extoff dir timeSecond env,
      FragCmp.same (keyOf6 ip6 fraghdr dir) key = true → F (frentOf6 m ip6 fraghdr hdrlen extoff) →
      match (pfReassemble6 s m ip6 fraghdr hdrlen extoff dir timeSecond env).2 with
      | .complete m' _ => ∃ first, firstOf6 s (keyOf6 ip6 fraghdr dir)
          (frentOf6 m ip6 fraghdr hdrlen extoff) timeSecond env.pools = some first
          ∧ F first ∧ first.feOff = 0#16 ∧ (m' = packetOf first P ↔ Hits first P extoff)
      | .panic => ∃ first, firstOf6 s (keyOf6 ip6 fraghdr dir)
          (frentOf6 m ip6 fraghdr hdrlen extoff) timeSecond env.pools = some first
          ∧ F first ∧ first.feOff = 0#16 ∧ ¬Hits first P extoff
      | .drop _ | .held | .fail _ => True := by
  have hkeep : ∀ s a s', FragAct6 key F a → step6 s a = some s' → AllQueues key (Queue6Ok P F) s →
      AllQueues key (Queue6Ok P F) s' := step6_ok hP hF
  have hinv : AllQueues key (Queue6Ok P F) s := Runs.invariant hkeep hrun nofun
  intro m ip6 fraghdr hdrlen extoff dir timeSecond env hsame hfrag
  have hverdict := (pfReassemble6_ok hP hF hinv (fun _ => hfrag) timeSecond env).2 hsame
  revert hverdict
  cases (pfReassemble6 s m ip6 fraghdr hdrlen extoff dir timeSecond env).2 <;> exact id

/-- Eight bytes at offset 0 behind destination options and the fragment header, for TCP. -/
def optioned : List UInt8 × Ip6 × Ip6Frag :=
  ((List.replicate 40 0).set 6 60 ++ [44, 0, 1, 4, 0, 0, 0, 0] ++ [6, 0, 0, 1, 0, 0, 0, 9]
    ++ [0, 1, 2, 3, 4, 5, 6, 7], ⟨24#16, 1#128, 2#128⟩, ⟨1#16, 9#32⟩)

/-- The other eight bytes, behind the fragment header only. -/
def bare : List UInt8 × Ip6 × Ip6Frag :=
  ((List.replicate 40 0).set 6 44 ++ [6, 0, 0, 8, 0, 0, 0, 9] ++ [8, 9, 10, 11, 12, 13, 14, 15],
    ⟨16#16, 1#128, 2#128⟩, ⟨8#16, 9#32⟩)

def optionedFrent : PfFrent := frentOf6 optioned.1 optioned.2.1 optioned.2.2 56#16 40#16

def bareFrent : PfFrent := frentOf6 bare.1 bare.2.1 bare.2.2 48#16 0#16

def sixteen : List UInt8 := [0, 1, 2, 3, 4, 5, 6, 7, 8, 9, 10, 11, 12, 13, 14, 15]

def sixteenKey : PfFragmentCmp6 := ⟨1#128, 2#128, 9#32, 0#8, 1#8⟩

theorem sixteen_fragments : Fragments sixteen fun e => e = optionedFrent ∨ e = bareFrent where
  agrees := by
    rintro e (rfl | rfl)
    · exact ⟨by decide, by decide, by decide, by decide, by unfold Whole; decide⟩
    · exact ⟨by decide, by decide, by decide, by decide, by unfold Whole; decide⟩
  parsed := by
    rintro e (rfl | rfl)
    · exact ⟨by decide, fun _ => by decide⟩
    · exact ⟨by decide, fun h => absurd rfl h⟩

/-- The fragment with the options comes last, and the protocol goes into them. -/
theorem pf_reassemble6_optioned : ∃ s first m tag,
    step6 {} (.packet bare.1 bare.2.1 bare.2.2 48#16 0#16 1#8 0#32 {}) = some s
    ∧ (pfReassemble6 s optioned.1 optioned.2.1 optioned.2.2 56#16 40#16 1#8 0#32 {}).2 = .complete m tag
    ∧ m = packetOf first sixteen := by
  have hrun : Runs step6 (fun _ a => FragAct6 sixteenKey (fun e => e = optionedFrent ∨ e = bareFrent) a) {}
      (pfReassemble6 {} bare.1 bare.2.1 bare.2.2 48#16 0#16 1#8 0#32 {}).1 :=
    .single ⟨.packet bare.1 bare.2.1 bare.2.2 48#16 0#16 1#8 0#32 {}, fun _ => .inr rfl, rfl⟩
  have hright := pf_reassemble6_runs sixteenKey sixteen (by decide) _ sixteen_fragments _ hrun
    optioned.1 optioned.2.1 optioned.2.2 56#16 40#16 1#8 0#32 {} (by decide) (.inl rfl)
  have hverdict : (pfReassemble6 (pfReassemble6 {} bare.1 bare.2.1 bare.2.2 48#16 0#16 1#8 0#32 {}).1
      optioned.1 optioned.2.1 optioned.2.2 56#16 40#16 1#8 0#32 {}).2
      = .complete (packetOf optionedFrent sixteen) ⟨48#16, 40#16, 8#16⟩ := by decide +kernel
  obtain ⟨first, hfirst, hF, hzero, hiff⟩ := hright
  have hopt : first = optionedFrent := by
    rcases hF with rfl | rfl
    · rfl
    · cases hzero
  refine ⟨_, first, packetOf optionedFrent sixteen, _, rfl, hverdict, hiff.mpr ?_⟩
  rw [hopt]
  exact .inl rfl

/-- In the other order the protocol goes into the IPv6 header, which announced the options. -/
theorem pf_reassemble6_misses : ¬∀ (key : PfFragmentCmp6) (P : List UInt8), P.length ≤ ipMaxpacket →
    ∀ F : PfFrent → Prop, Fragments P F → ∀ s : State PfFragmentCmp6,
      Runs step6 (fun _ a => FragAct6 key F a) {} s →
    ∀ m ip6 fraghdr hdrlen extoff dir timeSecond env,
      FragCmp.same (keyOf6 ip6 fraghdr dir) key = true → F (frentOf6 m ip6 fraghdr hdrlen extoff) →
      match (pfReassemble6 s m ip6 fraghdr hdrlen extoff dir timeSecond env).2 with
      | .complete m' _ => ∃ first, F first ∧ first.feOff = 0#16 ∧ m' = packetOf first P
      | .panic => False
      | .drop _ | .held | .fail _ => True := by
  intro hclaim
  have hrun : Runs step6 (fun _ a => FragAct6 sixteenKey (fun e => e = optionedFrent ∨ e = bareFrent) a) {}
      (pfReassemble6 {} optioned.1 optioned.2.1 optioned.2.2 56#16 40#16 1#8 0#32 {}).1 :=
    .single ⟨.packet optioned.1 optioned.2.1 optioned.2.2 56#16 40#16 1#8 0#32 {}, fun _ => .inl rfl, rfl⟩
  have hwrong := hclaim sixteenKey sixteen (by decide) _ sixteen_fragments _ hrun
    bare.1 bare.2.1 bare.2.2 48#16 0#16 1#8 0#32 {} (by decide) (.inr rfl)
  have hverdict : (pfReassemble6 (pfReassemble6 {} optioned.1 optioned.2.1 optioned.2.2 56#16 40#16 1#8 0#32
      {}).1 bare.1 bare.2.1 bare.2.2 48#16 0#16 1#8 0#32 {}).2
      = .complete ((headed optionedFrent sixteen).set 6 6) ⟨48#16, 0#16, 8#16⟩ := by decide +kernel
  rw [hverdict] at hwrong
  obtain ⟨first, hF, hzero, hm⟩ := hwrong
  rcases hF with rfl | rfl
  · exact absurd hm (by decide +kernel)
  · cases hzero

end Obsd.PfFrag
