import Obsd.MbufAdj

/-!
# Pulling bytes of a chain together

`m_pulldown` (`uipc_mbuf2.c`) makes some bytes of a chain contiguous in one
mbuf and does not touch what is before them. It takes the data that is in two
or more mbufs to the space behind the first part, to the space before the
second, or to a new mbuf; and what is in one mbuf that may not be written is
copied from there on.

It writes only where it may: the space is that of an mbuf whose storage
nothing else refers to (`store_ne`), and it is not in the data (`Frame`).
-/

namespace Obsd.MbufChain

/-- The loop of `m_copydata`, to offset `o` in the area of `dst`. -/
def copydataLoop (Z : Sizes) (dst : Mbuf) : Heap → Nat → List Mbuf → Nat → Nat → Option Heap
  | h, _, [], _, len => if len = 0 then some h else none
  | h, o, m :: next, off, len =>
    if len = 0 then some h
    else
      let count := min (m.len - off) len
      match h.put Z dst o (h.bytes m.store (m.data + off) count) with
      | none => none
      | some h => copydataLoop Z dst h (o + count) next 0 (len - count)

def mCopydata (Z : Sizes) (h : Heap) (m : List Mbuf) (off len : Nat) (dst : Mbuf) (o : Nat) :
    Option Heap :=
  match mGetptr m off with
  | none => none
  | some (_, m, next, off) => copydataLoop Z dst h o (m :: next) off len

/-- The end of `m_dup1`: a cluster when `l` bytes are not enough, and the copy. -/
def mDup1Fill (Z : Sizes) (h : Heap) (m : List Mbuf) (off len : Nat) (n : Mbuf) (l : Nat) :
    Option (Option Mbuf × Heap) :=
  let (n, h) := if l < len then mClget Z h n else (n, h)
  if l < len ∧ n.ext = none then some (none, mFree h n)
  else (mCopydata Z h m off len n n.data).map fun h => (some { n with len := len }, h)

def mDup1 (Z : Sizes) (h : Heap) (m : List Mbuf) (off len : Nat) : Option (Option Mbuf × Heap) :=
  if Z.mclbytes < len then some (none, h)
  else
    match m with
    | [] => none
    | m0 :: _ =>
      if off = 0 ∧ m0.pkthdr.isSome = true then
        match mGethdr Z h m0.type with
        | (none, h) => some (none, h)
        | (some n, h) =>
          match mDupPkthdr Z h n m0 with
          | (none, h) => some (none, mFree h n)
          | (some n, h) => mDup1Fill Z h m off len n Z.mhlen
      else
        match mGet h m0.type with
        | (none, h) => some (none, h)
        | (some n, h) => mDup1Fill Z h m off len n Z.mlen

/-- What `m_pulldown` returns: an mbuf with what is before and after it in the chain, and
the offset in it. -/
structure Pulled where
  pre : List Mbuf
  n : Mbuf
  next : List Mbuf
  off : Nat

def Pulled.chain (r : Pulled) : List Mbuf := r.pre ++ r.n :: r.next

/-- The end of `m_pulldown`: a new mbuf for the bytes. -/
def pulldownNew (Z : Sizes) (h : Heap) (m pre : List Mbuf) (n : Mbuf) (next : List Mbuf)
    (off len type : Nat) : Option (Option Pulled × Heap) :=
  let hlen := n.len - off
  let tlen := len - hlen
  match mGet h type with
  | (none, h) => some (none, mFreem h m)
  | (some o, h) =>
    let (o, h) := if Z.mlen < len then mClget Z h o else (o, h)
    if Z.mlen < len ∧ o.ext = none then some (none, mFreem (mFree h o) m)
    else
      match h.put Z o o.data (h.bytes n.store (n.data + off) hlen) with
      | none => none
      | some h =>
        match mCopydata Z h next 0 tlen o (o.data + hlen), mAdj next tlen with
        | some h, some next =>
          some (some ⟨pre ++ [{ n with len := n.len - hlen }], { o with len := hlen + tlen },
            next, 0⟩, h)
        | _, _ => none

/-- `m_pulldown` from where the bytes begin: at `off` in `n`. -/
def pulldownAt (Z : Sizes) (h : Heap) (m pre : List Mbuf) (n : Mbuf) (next : List Mbuf)
    (off len : Nat) (offp : Bool) (type : Nat) : Option (Option Pulled × Heap) :=
  let sharedcluster := mReadonly h n
  if (off = 0 ∨ offp = true) ∧ len ≤ n.len - off ∧ sharedcluster = false then
    some (some ⟨pre, n, next, off⟩, h)
  else if len ≤ n.len - off then
    match mDup1 Z h (n :: next) off (n.len - off) with
    | none => none
    | some (none, h) => some (none, mFreem h m)
    | some (some o, h) => some (some ⟨pre ++ [{ n with len := off }], o, next, 0⟩, h)
  else
    let hlen := n.len - off
    let tlen := len - hlen
    if hlen + total next < len then some (none, mFreem h m)
    else
      match next with
      | [] => none
      | m1 :: rest =>
        if (off = 0 ∨ offp = true) ∧ tlen ≤ mTrailingspace Z h n ∧ sharedcluster = false then
          match mCopydata Z h (m1 :: rest) 0 tlen n (n.data + n.len), mAdj (m1 :: rest) tlen with
          | some h, some next => some (some ⟨pre, { n with len := n.len + tlen }, next, off⟩, h)
          | _, _ => none
        else if (off = 0 ∨ offp = true) ∧ hlen ≤ mLeadingspace Z h m1 ∧
            sharedcluster = false ∧ tlen ≤ m1.len then
          let m1 := { m1 with data := m1.data - hlen, len := m1.len + hlen }
          match h.put Z m1 m1.data (h.bytes n.store (n.data + off) hlen) with
          | none => none
          | some h => some (some ⟨pre ++ [{ n with len := n.len - hlen }], m1, rest, 0⟩, h)
        else pulldownNew Z h m pre n (m1 :: rest) off len type

/-- `offp` says that the caller takes an offset. -/
def mPulldown (Z : Sizes) (h : Heap) (m : List Mbuf) (off len : Nat) (offp : Bool) :
    Option (Option Pulled × Heap) :=
  match m with
  | [] => none
  | m0 :: _ =>
    if Z.mclbytes < len then some (none, mFreem h m)
    else
      match mGetptr m off with
      | none => some (none, mFreem h m)
      | some (pre, n, next, off) => pulldownAt Z h m pre n next off len offp m0.type

/-! ## Copying a chain to an area -/

section Copydata

variable {Z : Sizes} {h : Heap} {dst : Mbuf} {c : List Mbuf} {o off len : Nat}

theorem copydataLoop_spec (hne : ∀ m ∈ c, m.store ≠ dst.store)
    (hoff : ∀ m ∈ c.head?, off ≤ m.len) (hlen : off + len ≤ total c)
    (hcap : o + len ≤ dst.cap Z) :
    ∃ h', copydataLoop Z dst h o c off len = some h' ∧
      h'.bytes dst.store o len = ((h.chain c).drop off).take len ∧ Frame dst.store o len h h' := by
  induction c generalizing h o off len with
  | nil =>
    obtain rfl : len = 0 := by
      rw [total_nil] at hlen
      omega
    exact ⟨h, by rw [copydataLoop, if_pos rfl], by rw [List.take_zero, bytes_zero],
      Frame.refl _ _ _ _⟩
  | cons m c ih =>
    rw [copydataLoop]
    by_cases hzero : len = 0
    · subst hzero
      exact ⟨h, if_pos rfl, by rw [List.take_zero, bytes_zero], Frame.refl _ _ _ _⟩
    · rw [if_neg hzero]
      rw [total_cons] at hlen
      have hin : off ≤ m.len := hoff m rfl
      obtain ⟨hm, hc⟩ := List.forall_mem_cons.mp hne
      have hfit : o + min (m.len - off) len ≤ dst.cap Z := by omega
      obtain ⟨h₁, hput, hbytes, hframe⟩ := put_bytes h dst m.store o (m.data + off) hfit
      have hsame : h₁.chain c = h.chain c :=
        chain_congr fun a ha => data_congr (hframe.other _ (hc a ha))
      have hsum : min (m.len - off) len + (len - min (m.len - off) len) = len := by omega
      have hrest : len - min (m.len - off) len = len - (m.len - off) := by omega
      have hlen' : 0 + (len - min (m.len - off) len) ≤ total c := by omega
      have hcap' : o + min (m.len - off) len + (len - min (m.len - off) len) ≤ dst.cap Z := by omega
      obtain ⟨h₂, hloop, hbytes₂, hframe₂⟩ := ih (h := h₁) hc (fun _ _ => Nat.zero_le _) hlen' hcap'
      refine ⟨h₂, by simp only [hput]; exact hloop, ?_, hsum ▸ hframe.append hframe₂⟩
      calc h₂.bytes dst.store o len
          = h₂.bytes dst.store o (min (m.len - off) len) ++
              h₂.bytes dst.store (o + min (m.len - off) len) (len - min (m.len - off) len) := by
            rw [← bytes_add, hsum]
        _ = h.bytes m.store (m.data + off) (min (m.len - off) len) ++
              (h.chain c).take (len - (m.len - off)) := by
            rw [hframe₂.before le_rfl, hbytes, hbytes₂, hsame, List.drop_zero, hrest]
        _ = ((h.chain (m :: c)).drop off).take len := (chain_slice h m c hin len).symm

theorem mCopydata_spec (hc : c ≠ []) (hne : ∀ m ∈ c, m.store ≠ dst.store)
    (hlen : off + len ≤ total c) (hcap : o + len ≤ dst.cap Z) :
    ∃ h', mCopydata Z h c off len dst o = some h' ∧
      h'.bytes dst.store o len = ((h.chain c).drop off).take len ∧ Frame dst.store o len h h' := by
  have hoff : off ≤ total c := Nat.le_trans (Nat.le_add_right _ _) hlen
  obtain ⟨⟨pre, m, next, off'⟩, hptr⟩ :=
    Option.isSome_iff_exists.mp (mGetptr_isSome hc hoff)
  obtain ⟨rfl, rfl, hin⟩ := mGetptr_spec hptr
  have hle : ∀ a ∈ (m :: next).head?, off' ≤ a.len := fun a ha => by
    obtain rfl : m = a := by simpa using ha
    rcases hin with hlt | ⟨heq, -⟩
    · exact Nat.le_of_lt hlt
    · exact Nat.le_of_eq heq
  rw [total_append] at hlen
  obtain ⟨h', hloop, hbytes, hframe⟩ := copydataLoop_spec (h := h)
    (fun a ha => hne a (List.mem_append_right _ ha)) hle (by omega) hcap
  refine ⟨h', ?_, ?_, hframe⟩
  · simp only [mCopydata, hptr]
    exact hloop
  · rw [chain_drop_append]
    exact hbytes

end Copydata

/-! ## New mbufs -/

/-- The mbuf is new and has these bytes. -/
structure Holds (Z : Sizes) (h h' : Heap) (o : Mbuf) (bs : List UInt8) : Prop where
  ext : Extends h h'
  inside : o.Inside Z
  data : h'.data o = bs

section New

variable {Z : Sizes} {h₀ h : Heap} {c : List Mbuf} {n o : Mbuf} {off len l : Nat}

theorem mDup1Fill_spec (hb : Blank Z h₀ h n) (hl : n.data + l ≤ Z.mlen) (hmcl : len ≤ Z.mclbytes)
    (hc : c ≠ []) (hold : ∀ m ∈ c, m.Old h₀) (hlen : off + len ≤ total c) :
    (∃ h', mDup1Fill Z h c off len n l = some (none, h') ∧ Extends h₀ h') ∨
    ∃ o h', mDup1Fill Z h c off len n l = some (some o, h') ∧ o.len = len ∧
      Holds Z h₀ h' o (((h₀.chain c).drop off).take len) := by
  obtain ⟨o, h₁, hgrow, hext, hroom⟩ := blank_room hb hl hmcl
  simp only [mDup1Fill, hgrow]
  by_cases hfail : l < len ∧ o.ext = none
  · refine .inl ⟨_, if_pos hfail, ?_⟩
    rw [mFree, hfail.2]
    exact hext
  · have hr := hroom hfail
    obtain ⟨h', hcopy, hbytes, hframe⟩ :=
      mCopydata_spec (h := h₁) hc (hr.store_ne hold) hlen hr.cap
    refine .inr ⟨{ o with len := len }, h', ?_, rfl, hr.ext.frame hr.fresh hframe,
      ⟨hr.base, hr.cap⟩, ?_⟩
    · rw [if_neg hfail, hcopy]
      rfl
    · rw [← hr.ext.chain hold]
      exact hbytes

theorem mDup1_spec (hc : c ≠ []) (hold : ∀ m ∈ c, m.Old h) (hlen : off + len ≤ total c) :
    (∃ h', mDup1 Z h c off len = some (none, h') ∧ Extends h h') ∨
    ∃ o h', mDup1 Z h c off len = some (some o, h') ∧ o.len = len ∧
      Holds Z h h' o (((h.chain c).drop off).take len) := by
  obtain ⟨m0, c', hcons⟩ := List.exists_cons_of_ne_nil hc
  unfold mDup1
  by_cases hbig : Z.mclbytes < len
  · exact .inl ⟨h, if_pos hbig, Extends.refl h⟩
  rw [if_neg hbig, hcons]
  have hmcl := Nat.le_of_not_lt hbig
  simp only
  rw [← hcons]
  by_cases hhdr : off = 0 ∧ m0.pkthdr.isSome = true
  · rw [if_pos hhdr]
    rcases hav : h.avail h.next with _ | _
    · refine .inl ⟨h.tick, ?_, extends_tick h⟩
      rw [mGethdr, if_neg (by rw [hav]; exact Bool.false_ne_true)]
    obtain ⟨n₁, hget, hb₁, -⟩ := mGethdr_blank Z hav m0.type
    simp only [hget]
    rcases hav' : h.tick.avail h.tick.next with _ | _
    · refine .inl ⟨mFree h.tick.tick n₁, ?_, ?_⟩
      · rw [mDupPkthdr, if_neg (by rw [hav']; exact Bool.false_ne_true)]
      · rw [mFree, hb₁.none]
        exact (extends_tick h).trans (extends_tick h.tick)
    obtain ⟨n₂, hdup, hb₂, -, hdata, -⟩ := mDupPkthdr_blank hav' hb₁ hhdr.2
    simp only [hdup]
    have hl : n₂.data + Z.mhlen ≤ Z.mlen := by
      rw [hdata]
      exact Nat.le_of_eq (Nat.sub_add_cancel Z.mhlen_le)
    exact mDup1Fill_spec hb₂ hl hmcl hc hold hlen
  · rw [if_neg hhdr]
    rcases hav : h.avail h.next with _ | _
    · refine .inl ⟨h.tick, ?_, extends_tick h⟩
      rw [mGet, if_neg (by rw [hav]; exact Bool.false_ne_true)]
    obtain ⟨n₁, hget, hb₁, -, hdata⟩ := mGet_blank Z hav m0.type
    simp only [hget]
    exact mDup1Fill_spec hb₁ (Nat.le_of_eq (by rw [hdata, Nat.zero_add])) hmcl hc hold hlen

end New

/-! ## What may be written -/

section Write

variable {Z : Sizes} {h h' : Heap} {c pre next : List Mbuf} {m n : Mbuf} {o k : Nat}

/-- Nothing else in the chain has its data where an mbuf has it that may be written. -/
theorem store_ne (hc : Chain Z h c) (hcut : c = pre ++ n :: next) (hro : mReadonly h n = false) :
    ∀ m ∈ pre ++ next, m.store ≠ n.store := by
  intro m hm heq
  have hmem : m ∈ pre ∨ m ∈ next := List.mem_append.mp hm
  unfold Mbuf.store at heq
  rcases he : n.ext with _ | e
  · rw [he] at heq
    rcases hme : m.ext with _ | e'
    · rw [hme] at heq
      have haddr : m.addr = n.addr := by simpa using heq
      have hnodup := hc.nodup
      rw [hcut, List.map_append, List.map_cons, List.nodup_append] at hnodup
      obtain ⟨-, hnext, hdisj⟩ := hnodup
      rcases hmem with hmem | hmem
      · exact hdisj _ (List.mem_map_of_mem hmem) _ List.mem_cons_self haddr
      · exact (List.nodup_cons.mp hnext).1 (haddr ▸ List.mem_map_of_mem hmem)
    · rw [hme] at heq
      exact absurd heq (by simp)
  · rw [he] at heq
    rcases hme : m.ext with _ | e'
    · rw [hme] at heq
      exact absurd heq (by simp)
    · rw [hme] at heq
      have hbuf : e'.buf = e.buf := by simpa using heq
      have hone : ¬ 1 < h.refs e.buf := by
        rw [mReadonly, he] at hro
        exact of_decide_eq_false (Bool.or_eq_false_iff.mp hro).2
      have hle := hc.refs e.buf
      have hn : refsIn e.buf [n] = 1 := by simp [refsIn, he]
      have hpos : 0 < refsIn e.buf (pre ++ next) :=
        List.countP_pos_iff.mpr ⟨m, hm, by simp [hme, hbuf]⟩
      have hsum : refsIn e.buf c = refsIn e.buf pre + (refsIn e.buf [n] + refsIn e.buf next) := by
        rw [hcut, ← List.singleton_append, refsIn, List.countP_append, List.countP_append]
        rfl
      rw [refsIn, List.countP_append] at hpos
      unfold refsIn at *
      omega

/-- A write where it may be leaves the data of all other mbufs, and what may not be
written. -/
theorem frame_others (hc : Chain Z h c) (hcut : c = pre ++ n :: next)
    (hro : mReadonly h n = false) (hf : Frame n.store o k h h') :
    (∀ m ∈ pre ++ next, h'.data m = h.data m) ∧
      ∀ m ∈ c, mReadonly h m = true → h'.byte m.store = h.byte m.store := by
  have hne := store_ne hc hcut hro
  refine ⟨fun m hm => data_congr (hf.other _ (hne m hm)), fun m hm hmro => hf.other _ ?_⟩
  rw [hcut, List.mem_append, List.mem_cons] at hm
  rcases hm with hm | rfl | hm
  · exact hne m (List.mem_append_left _ hm)
  · exact absurd (hro.symm.trans hmro) Bool.false_ne_true
  · exact hne m (List.mem_append_right _ hm)

end Write

/-! ## The bytes together -/

/-- What `m_pulldown` is to do when it does not free the chain: the same bytes, with those
asked for in one mbuf; the mbufs before as they were; and nothing written that is shared
or read-only, or is not of the chain. -/
structure PulledRight (Z : Sizes) (h : Heap) (c : List Mbuf) (off len : Nat) (offp : Bool)
    (r : Pulled) (h' : Heap) : Prop where
  bytes : h'.chain r.chain = h.chain c
  long : r.off + len ≤ r.n.len
  contiguous : ((h'.data r.n).drop r.off).take len = ((h.chain c).drop off).take len
  start : offp = false → r.off = 0
  before : ∀ p q, c = p ++ q → total p ≤ off → p <+: r.chain ∧ ∀ m ∈ p, h'.data m = h.data m
  inside : ∀ m ∈ r.chain, m.Inside Z
  readonly : ∀ m ∈ c, mReadonly h m = true → h'.byte m.store = h.byte m.store
  others : ∀ s : Store, s.id < h.next → (∀ m ∈ c, m.store ≠ s) → h'.byte s = h.byte s

section Together

variable {Z : Sizes} {h h' : Heap} {c pre next : List Mbuf} {n : Mbuf} {off off' len : Nat}
  {offp : Bool}

/-- Where `m_getptr` found the bytes. -/
structure Found (c : List Mbuf) (off : Nat) (pre : List Mbuf) (n : Mbuf) (next : List Mbuf)
    (off' : Nat) : Prop where
  cut : c = pre ++ n :: next
  off : off = total pre + off'
  inn : off' < n.len ∨ off' = n.len ∧ next = []

theorem Found.le (hf : Found c off pre n next off') : off' ≤ n.len := by
  rcases hf.inn with hlt | ⟨heq, -⟩
  · exact Nat.le_of_lt hlt
  · exact Nat.le_of_eq heq

/-- The mbufs that are wholly before the bytes. -/
theorem Found.before (hf : Found c off pre n next off') {p q : List Mbuf} (hc : c = p ++ q)
    (hp : total p ≤ off) : p <+: pre ∨ p = pre ++ [n] ∧ off' = n.len ∧ next = [] := by
  have hcut : pre ++ n :: next = p ++ q := hf.cut.symm.trans hc
  rcases List.append_eq_append_iff.mp hcut with ⟨a, rfl, ha⟩ | ⟨a, rfl, -⟩
  · rcases a with _ | ⟨b, a⟩
    · exact .inl (by simp)
    · obtain ⟨rfl, rfl⟩ : n = b ∧ next = a ++ q := by simpa using ha
      have hoff := hf.off
      rw [total_append, total_cons] at hp
      rcases hf.inn with hlt | ⟨heq, hnil⟩
      · omega
      · obtain ⟨rfl, rfl⟩ := List.append_eq_nil_iff.mp hnil
        exact .inr ⟨rfl, heq, rfl⟩
  · exact .inl (List.prefix_append p a)

/-- The result when the mbuf is left as it is up to the bytes, and they are at the
beginning of the mbuf after it. -/
theorem pulled_cut {o : Mbuf} {next' : List Mbuf} (hc : Chain Z h c)
    (hf : Found c off pre n next off') (hold : ∀ m ∈ pre ++ [n], h'.data m = h.data m)
    (hbytes : h'.data o ++ h'.chain next' = (h.data n).drop off' ++ h.chain next)
    (hlen : len ≤ o.len) (ho : o.Inside Z) (hnext : ∀ m ∈ next', m.Inside Z)
    (hro : ∀ m ∈ c, mReadonly h m = true → h'.byte m.store = h.byte m.store)
    (hothers : ∀ s : Store, s.id < h.next → (∀ m ∈ c, m.store ≠ s) → h'.byte s = h.byte s) :
    PulledRight Z h c off len offp ⟨pre ++ [{ n with len := off' }], o, next', 0⟩ h' := by
  have hle := hf.le
  have hdata : h'.data n = h.data n := hold n (List.mem_append_right _ List.mem_cons_self)
  have hpre : h'.chain pre = h.chain pre :=
    chain_congr fun m hm => hold m (List.mem_append_left _ hm)
  have hin : ∀ m ∈ pre ++ n :: next, m.Inside Z := hf.cut ▸ hc.inside
  refine ⟨?_, ?_, ?_, fun _ => rfl, ?_, ?_, hro, hothers⟩
  · calc h'.chain (pre ++ [{ n with len := off' }] ++ o :: next')
        = h.chain pre ++ (h.data n).take off' ++ (h'.data o ++ h'.chain next') := by
          rw [chain_append, chain_append, hpre, chain_cons, chain_nil, List.append_nil,
            data_take h' hle, hdata, chain_cons]
      _ = h.chain c := by
          rw [hbytes, hf.cut, chain_append, chain_cons, List.append_assoc,
            ← List.append_assoc ((h.data n).take off'), List.take_append_drop]
  · exact (Nat.zero_add len).symm ▸ hlen
  · rw [List.drop_zero, hf.off, hf.cut, chain_drop_append, chain_drop_in _ _ _ hle, ← hbytes,
      List.take_append_of_le_length (by rw [data_length]; exact hlen)]
  · intro p q hpq hp
    rcases hf.before hpq hp with hpre' | ⟨rfl, heq, -⟩
    · refine ⟨?_, fun m hm => hold m (List.mem_append_left _ (hpre'.subset hm))⟩
      exact (hpre'.trans (List.prefix_append _ _)).trans (List.prefix_append _ _)
    · refine ⟨?_, hold⟩
      rw [heq]
      exact List.prefix_append _ _
  · intro m hm
    rcases List.mem_append.mp hm with hm | hm
    · rcases List.mem_append.mp hm with hm | hm
      · exact hin m (List.mem_append_left _ hm)
      · rw [List.mem_singleton.mp hm]
        have hn := hin n (List.mem_append_right _ List.mem_cons_self)
        exact ⟨hn.1, Nat.le_trans (Nat.add_le_add_left hle _) hn.2⟩
    · rcases List.mem_cons.mp hm with rfl | hm
      · exact ho
      · exact hnext m hm

/-- The same when the bytes went to new storage. -/
theorem pulled_new {o : Mbuf} {next' : List Mbuf} {bs : List UInt8} (hc : Chain Z h c)
    (hf : Found c off pre n next off') (ho : Holds Z h h' o bs)
    (hbytes : bs ++ h'.chain next' = (h.data n).drop off' ++ h.chain next)
    (hlen : len ≤ o.len) (hnext : ∀ m ∈ next', m.Inside Z) :
    PulledRight Z h c off len offp ⟨pre ++ [{ n with len := off' }], o, next', 0⟩ h' := by
  have hold : ∀ m ∈ pre ++ [n], m.Old h := fun m hm => hc.old m (by
    rw [hf.cut, ← List.singleton_append, ← List.append_assoc]
    exact List.mem_append_left _ hm)
  refine pulled_cut hc hf (fun m hm => ho.ext.data (hold m hm)) ?_ hlen ho.inside hnext ?_ ?_
  · rw [ho.data, hbytes]
  · exact fun m hm _ => ho.ext.byte _ (hc.old m hm).store
  · exact fun s hs _ => ho.ext.byte s hs

/-- When the bytes are in one mbuf already. -/
theorem pulled_same (hc : Chain Z h c) (hf : Found c off pre n next off')
    (hlen : len ≤ n.len - off') (hoff : offp = false → off' = 0) :
    PulledRight Z h c off len offp ⟨pre, n, next, off'⟩ h := by
  have hle := hf.le
  refine ⟨by rw [hf.cut]; rfl, ?_, ?_, hoff, ?_, ?_, fun _ _ _ => rfl, fun _ _ _ => rfl⟩
  · show off' + len ≤ n.len
    omega
  · rw [hf.off, hf.cut, chain_drop_append, chain_drop_in _ _ _ hle,
      List.take_append_of_le_length (by rw [List.length_drop, data_length]; exact hlen)]
  · intro p q hpq _
    refine ⟨⟨q, ?_⟩, fun _ _ => rfl⟩
    rw [← hpq, hf.cut]
    rfl
  · exact fun m hm => hc.inside m (by rw [hf.cut]; exact hm)

/-- When there is space for them behind the first part. -/
theorem pulled_trailing {next' : List Mbuf} {tlen : Nat} (hc : Chain Z h c)
    (hf : Found c off pre n next off') (hro : mReadonly h n = false)
    (hframe : Frame n.store (n.data + n.len) tlen h h')
    (hcopy : h'.bytes n.store (n.data + n.len) tlen = (h.chain next).take tlen)
    (hnext' : h'.chain next' = (h.chain next).drop tlen) (hin' : ∀ m ∈ next', m.Inside Z)
    (hcap : n.data + n.len + tlen ≤ n.cap Z) (hlen : off' + len ≤ n.len + tlen)
    (hlt : off' < n.len) (hoff : offp = false → off' = 0) :
    PulledRight Z h c off len offp ⟨pre, { n with len := n.len + tlen }, next', off'⟩ h' := by
  obtain ⟨hothers, hros⟩ := frame_others hc hf.cut hro hframe
  have hpre : h'.chain pre = h.chain pre :=
    chain_congr fun m hm => hothers m (List.mem_append_left _ hm)
  have hin : ∀ m ∈ pre ++ n :: next, m.Inside Z := hf.cut ▸ hc.inside
  have hdata : h'.data { n with len := n.len + tlen } = h.data n ++ (h.chain next).take tlen := by
    show h'.bytes n.store n.data (n.len + tlen) = _
    rw [bytes_add, hcopy, hframe.before le_rfl]
    rfl
  have hall : h'.data { n with len := n.len + tlen } ++ h'.chain next' = h.chain (n :: next) := by
    rw [hdata, hnext', List.append_assoc, List.take_append_drop, chain_cons]
  refine ⟨?_, hlen, ?_, hoff, ?_, ?_, hros, ?_⟩
  · show h'.chain (pre ++ _) = _
    rw [chain_append, chain_cons, hall, hpre, hf.cut, chain_append]
  · rw [hf.off, hf.cut, chain_drop_append, ← hall, List.drop_append_of_le_length
      (by rw [data_length]; exact Nat.le_trans hf.le (Nat.le_add_right _ _)),
      List.take_append_of_le_length]
    rw [List.length_drop, data_length]
    exact Nat.le_sub_of_add_le (Nat.add_comm off' len ▸ hlen)
  · intro p q hpq hp
    rcases hf.before hpq hp with hpre' | ⟨-, heq, -⟩
    · exact ⟨hpre'.trans (List.prefix_append _ _),
        fun m hm => hothers m (List.mem_append_left _ (hpre'.subset hm))⟩
    · exact absurd heq (Nat.ne_of_lt hlt)
  · intro m hm
    rcases List.mem_append.mp hm with hm | hm
    · exact hin m (List.mem_append_left _ hm)
    · rcases List.mem_cons.mp hm with rfl | hm
      · have hn := hin n (List.mem_append_right _ List.mem_cons_self)
        refine ⟨hn.1, ?_⟩
        rw [← Nat.add_assoc]
        exact hcap
      · exact hin' m hm
  · intro s _ hs
    have hn : n ∈ c := hf.cut ▸ List.mem_append_right _ List.mem_cons_self
    exact hframe.other s (hs n hn).symm

/-- When there is space for the first part before the second. -/
theorem pulled_leading {m1 : Mbuf} {hlen : Nat} (hc : Chain Z h c)
    (hf : Found c off pre n (m1 :: next) off') (hro : mReadonly h m1 = false)
    (hhlen : hlen = n.len - off') (hspace : m1.base Z + hlen ≤ m1.data)
    (hframe : Frame m1.store (m1.data - hlen) hlen h h')
    (hcopy : h'.bytes m1.store (m1.data - hlen) hlen = h.bytes n.store (n.data + off') hlen)
    (hlen' : len ≤ m1.len + hlen) :
    PulledRight Z h c off len offp ⟨pre ++ [{ n with len := off' }],
      { m1 with data := m1.data - hlen, len := m1.len + hlen }, next, 0⟩ h' := by
  have hcut : c = (pre ++ [n]) ++ m1 :: next := by
    rw [hf.cut, List.append_assoc, List.singleton_append]
  have hmem : m1 ∈ c := hcut ▸ List.mem_append_right _ List.mem_cons_self
  obtain ⟨hothers, hros⟩ := frame_others hc hcut hro hframe
  have hback : m1.data - hlen + hlen = m1.data := Nat.sub_add_cancel (by omega)
  have hdata : h'.data { m1 with data := m1.data - hlen, len := m1.len + hlen } =
      (h.data n).drop off' ++ h.data m1 := by
    show h'.bytes m1.store (m1.data - hlen) (m1.len + hlen) = _
    rw [Nat.add_comm m1.len, bytes_add, hcopy, hback, hframe.behind (Nat.le_of_eq hback), hhlen,
      Heap.data, Heap.data, drop_bytes _ _ _ hf.le]
  have hm1 := hc.inside m1 hmem
  refine pulled_cut hc hf (fun m hm => hothers m (List.mem_append_left _ hm)) ?_ hlen' ?_ ?_ hros ?_
  · rw [hdata, chain_cons, List.append_assoc,
      chain_congr fun m hm => hothers m (List.mem_append_right _ hm)]
  · refine ⟨Nat.le_sub_of_add_le hspace, ?_⟩
    show m1.data - hlen + (m1.len + hlen) ≤ m1.cap Z
    have hcap := hm1.2
    omega
  · exact fun m hm => hc.inside m
      (hcut ▸ List.mem_append_right _ (List.mem_cons_of_mem m1 hm))
  · exact fun s _ hs => hframe.other s (hs m1 hmem).symm

end Together

/-! ## The whole -/

section Whole

variable {Z : Sizes} {h : Heap} {c pre next : List Mbuf} {n : Mbuf} {off off' len : Nat}
  {offp : Bool}

/-- The chain is freed, or the bytes are together. -/
def Pulls (Z : Sizes) (h : Heap) (c : List Mbuf) (off len : Nat) (offp : Bool)
    (result : Option (Option Pulled × Heap)) : Prop :=
  (∃ h₁, Extends h h₁ ∧ result = some (none, mFreem h₁ c)) ∨
    ∃ r h', result = some (some r, h') ∧ PulledRight Z h c off len offp r h'

theorem mAdj_copied {h' : Heap} {tlen : Nat} (hc : Chain Z h c)
    (hf : Found c off pre n next off') (hne : next ≠ []) (htlen : tlen ≤ total next)
    (hsame : h'.chain next = h.chain next) :
    ∃ next', mAdj next tlen = some next' ∧ h'.chain next' = (h.chain next).drop tlen ∧
      ∀ m ∈ next', m.Inside Z := by
  have htotal : total c = total pre + (n.len + total next) := by
    rw [hf.cut, total_append, total_cons]
  have hfits := hc.fits
  obtain ⟨next', hadj, htrims, hbytes, -⟩ :=
    mAdj_spec h' (k := (tlen : Int)) hne (by omega) (by omega) (by omega)
  rw [if_pos (Int.natCast_nonneg tlen), Int.natAbs_natCast, hsame] at hbytes
  refine ⟨next', hadj, hbytes, trims_all htrims (fun _ _ => Trims.inside) fun m hm => ?_⟩
  exact hc.inside m (hf.cut ▸ List.mem_append_right _ (List.mem_cons_of_mem n hm))

/-- The hard way. -/
theorem pulldownNew_pulls (type : Nat) (hc : Chain Z h c) (hf : Found c off pre n next off')
    (hlt : n.len - off' < len) (hmcl : len ≤ Z.mclbytes) (hne : next ≠ [])
    (hlen : len ≤ n.len - off' + total next) :
    Pulls Z h c off len offp (pulldownNew Z h c pre n next off' len type) := by
  have hle := hf.le
  have hold : ∀ m ∈ n :: next, m.Old h := fun m hm =>
    hc.old m (hf.cut ▸ List.mem_append_right _ hm)
  obtain ⟨holdn, holdnext⟩ := List.forall_mem_cons.mp hold
  unfold pulldownNew
  rcases hav : h.avail h.next with _ | _
  · refine .inl ⟨h.tick, extends_tick h, ?_⟩
    simp only [mGet, hav, Bool.false_eq_true, if_false]
  obtain ⟨o₁, hget, hb, -, hdata⟩ := mGet_blank Z hav type
  have hl : o₁.data + Z.mlen ≤ Z.mlen := Nat.le_of_eq (by rw [hdata, Nat.zero_add])
  obtain ⟨o, h₁, hgrow, hext, hroom⟩ := blank_room hb hl hmcl
  simp only [hget, hgrow]
  by_cases hfail : Z.mlen < len ∧ o.ext = none
  · refine .inl ⟨h₁, hext, ?_⟩
    rw [if_pos hfail, mFree, hfail.2]
  rw [if_neg hfail]
  have hr := hroom hfail
  have hcap := hr.cap
  have hfit : o.data + (n.len - off') ≤ o.cap Z := by omega
  obtain ⟨h₂, hput, hbytes₂, hframe₂⟩ := put_bytes h₁ o n.store o.data (n.data + off') hfit
  have hext₂ := hr.ext.frame hr.fresh hframe₂
  have htake : 0 + (len - (n.len - off')) ≤ total next := by omega
  have hcap₂ : o.data + (n.len - off') + (len - (n.len - off')) ≤ o.cap Z := by omega
  obtain ⟨h₃, hcopy, hbytes₃, hframe₃⟩ :=
    mCopydata_spec (h := h₂) hne (hr.store_ne holdnext) htake hcap₂
  have hext₃ := hext₂.frame hr.fresh hframe₃
  have htlen : len - (n.len - off') ≤ total next := by omega
  obtain ⟨next', hadj, hnext', hin'⟩ :=
    mAdj_copied hc hf hne htlen (hext₃.chain holdnext)
  simp only [hput, hcopy, hadj, Nat.sub_sub_self hle]
  have hsum : n.len - off' + (len - (n.len - off')) = len := by omega
  have hholds : Holds Z h h₃ { o with len := n.len - off' + (len - (n.len - off')) }
      ((h.data n).drop off' ++ (h.chain next).take (len - (n.len - off'))) := by
    refine ⟨hext₃, ⟨hr.base, by rw [hsum]; exact hcap⟩, ?_⟩
    show h₃.bytes o.store o.data (n.len - off' + (len - (n.len - off'))) = _
    rw [bytes_add, hframe₃.before le_rfl, hbytes₂, hbytes₃, List.drop_zero,
      hext₂.chain holdnext, Heap.data, drop_bytes _ _ _ hle]
    congr 1
    exact bytes_congr fun k _ _ => by rw [hr.ext.byte _ holdn.store]
  refine .inr ⟨_, _, rfl, pulled_new hc hf hholds ?_ (Nat.le_of_eq hsum.symm) hin'⟩
  rw [hnext', List.append_assoc, List.take_append_drop]

/-- The two ways to move one part to the other. -/
theorem pulldown_trailing_pulls {tlen : Nat} (len : Nat) (offp : Bool) (hc : Chain Z h c)
    (hf : Found c off pre n next off') (hne : next ≠ []) (hlt : off' < n.len)
    (htlen : tlen ≤ total next) (hlen : off' + len ≤ n.len + tlen) (hpos : 0 < tlen)
    (hspace : tlen ≤ mTrailingspace Z h n) (hoff : offp = false → off' = 0) :
    ∃ h' next', mCopydata Z h next 0 tlen n (n.data + n.len) = some h' ∧
      mAdj next tlen = some next' ∧
      PulledRight Z h c off len offp ⟨pre, { n with len := n.len + tlen }, next', off'⟩ h' := by
  obtain ⟨hro, hspace'⟩ : mReadonly h n = false ∧ tlen ≤ n.cap Z - (n.data + n.len) := by
    unfold mTrailingspace at hspace
    rcases hro : mReadonly h n with _ | _
    · rw [hro, if_neg Bool.false_ne_true] at hspace
      exact ⟨rfl, hspace⟩
    · rw [hro, if_pos rfl] at hspace
      omega
  have hcap : n.data + n.len + tlen ≤ n.cap Z := by omega
  have hstore := store_ne hc hf.cut hro
  have hfrom : 0 + tlen ≤ total next := by omega
  obtain ⟨h', hcopy, hbytes, hframe⟩ := mCopydata_spec (h := h) hne
    (fun m hm => hstore m (List.mem_append_right _ hm)) hfrom hcap
  have hothers := (frame_others hc hf.cut hro hframe).1
  have hsame : h'.chain next = h.chain next :=
    chain_congr fun m hm => hothers m (List.mem_append_right _ hm)
  obtain ⟨next', hadj, hnext', hin'⟩ := mAdj_copied hc hf hne htlen hsame
  exact ⟨h', next', hcopy, hadj,
    pulled_trailing hc hf hro hframe hbytes hnext' hin' hcap hlen hlt hoff⟩

theorem pulldown_leading_pulls {m1 : Mbuf} {hlen : Nat} (len : Nat) (offp : Bool) (hc : Chain Z h c)
    (hf : Found c off pre n (m1 :: next) off') (hhlen : hlen = n.len - off') (hpos : 0 < hlen)
    (hspace : hlen ≤ mLeadingspace Z h m1) (hlen' : len ≤ m1.len + hlen) :
    ∃ h', h.put Z { m1 with data := m1.data - hlen, len := m1.len + hlen } (m1.data - hlen)
        (h.bytes n.store (n.data + off') hlen) = some h' ∧
      PulledRight Z h c off len offp ⟨pre ++ [{ n with len := n.len - hlen }],
        { m1 with data := m1.data - hlen, len := m1.len + hlen }, next, 0⟩ h' := by
  obtain ⟨hro, hspace'⟩ : mReadonly h m1 = false ∧ hlen ≤ m1.data - m1.base Z := by
    unfold mLeadingspace at hspace
    rcases hro : mReadonly h m1 with _ | _
    · rw [hro, if_neg Bool.false_ne_true] at hspace
      exact ⟨rfl, hspace⟩
    · rw [hro, if_pos rfl] at hspace
      omega
  have hmem : m1 ∈ c :=
    hf.cut ▸ List.mem_append_right _ (List.mem_cons_of_mem n List.mem_cons_self)
  have hcap := (hc.inside m1 hmem).2
  have hcap' : m1.data - hlen + hlen ≤ m1.cap Z := by omega
  obtain ⟨h', hput, hbytes, hframe⟩ := put_bytes (Z := Z) h
    { m1 with data := m1.data - hlen, len := m1.len + hlen } n.store (m1.data - hlen)
    (n.data + off') hcap'
  have hcut : n.len - hlen = off' := by rw [hhlen, Nat.sub_sub_self hf.le]
  rw [hcut]
  exact ⟨h', hput, pulled_leading hc hf hro hhlen (by omega) hframe hbytes hlen'⟩

theorem pulldownAt_pulls (offp : Bool) (type : Nat) (hc : Chain Z h c)
    (hf : Found c off pre n next off') (hlen : off + len ≤ total c) (hmcl : len ≤ Z.mclbytes) :
    Pulls Z h c off len offp (pulldownAt Z h c pre n next off' len offp type) := by
  have hle := hf.le
  have htotal : total c = total pre + (n.len + total next) := by
    rw [hf.cut, total_append, total_cons]
  have hoff := hf.off
  have hstart : off' = 0 ∨ offp = true → offp = false → off' = 0 := fun hor hno =>
    hor.resolve_right (by rw [hno]; exact Bool.false_ne_true)
  unfold pulldownAt
  by_cases hdone : (off' = 0 ∨ offp = true) ∧ len ≤ n.len - off' ∧ mReadonly h n = false
  · simp only [if_pos hdone]
    exact .inr ⟨_, _, rfl, pulled_same hc hf hdone.2.1 (hstart hdone.1)⟩
  simp only [if_neg hdone]
  by_cases hone : len ≤ n.len - off'
  · rw [if_pos hone]
    have hold : ∀ m ∈ n :: next, m.Old h := fun m hm =>
      hc.old m (hf.cut ▸ List.mem_append_right _ hm)
    have hpart : off' + (n.len - off') ≤ total (n :: next) := by
      rw [total_cons]
      omega
    rcases mDup1_spec (Z := Z) (by simp) hold hpart with
      ⟨h₁, hdup, hext⟩ | ⟨o, h₁, hdup, holen, hholds⟩
    · exact .inl ⟨h₁, hext, by rw [hdup]⟩
    · have hbs : ((h.chain (n :: next)).drop off').take (n.len - off') = (h.data n).drop off' := by
        rw [chain_drop_in _ _ _ hle, List.take_left' (by rw [List.length_drop, data_length])]
      rw [hbs] at hholds
      have hnext : h₁.chain next = h.chain next :=
        hholds.ext.chain fun m hm => hold m (List.mem_cons_of_mem n hm)
      rw [hdup]
      refine .inr ⟨_, _, rfl, pulled_new hc hf hholds (by rw [hnext]) (holen ▸ hone) fun m hm => ?_⟩
      exact hc.inside m (hf.cut ▸ List.mem_append_right _ (List.mem_cons_of_mem n hm))
  rw [if_neg hone, if_neg (by omega)]
  have hlt : off' < n.len := by
    rcases hf.inn with hlt | ⟨heq, hnil⟩
    · exact hlt
    · rw [hnil, total_nil] at htotal
      omega
  rcases next with _ | ⟨m1, rest⟩
  · rw [total_nil] at htotal
    omega
  simp only
  by_cases htrail : (off' = 0 ∨ offp = true) ∧ len - (n.len - off') ≤ mTrailingspace Z h n ∧
      mReadonly h n = false
  · rw [if_pos htrail]
    have htlen : len - (n.len - off') ≤ total (m1 :: rest) := by omega
    obtain ⟨h', next', hcopy, hadj, hright⟩ := pulldown_trailing_pulls len offp hc hf
      (by simp) hlt htlen (by omega) (by omega) htrail.2.1 (hstart htrail.1)
    rw [hcopy, hadj]
    exact .inr ⟨_, _, rfl, hright⟩
  rw [if_neg htrail]
  by_cases hlead : (off' = 0 ∨ offp = true) ∧ n.len - off' ≤ mLeadingspace Z h m1 ∧
      mReadonly h n = false ∧ len - (n.len - off') ≤ m1.len
  · rw [if_pos hlead]
    obtain ⟨h', hput, hright⟩ := pulldown_leading_pulls len offp hc hf rfl (by omega)
      hlead.2.1 (by omega)
    rw [hput]
    exact .inr ⟨_, _, rfl, hright⟩
  rw [if_neg hlead]
  exact pulldownNew_pulls _ hc hf (by omega) hmcl (by simp) (by omega)

/-- `m_pulldown` frees the chain or makes the bytes contiguous, whatever the division into
mbufs, the storage and the memory there is. -/
theorem m_pulldown_pulls (Z : Sizes) (h : Heap) (c : List Mbuf) (off len : Nat) (offp : Bool)
    (hc : Chain Z h c) (hlen : off + len ≤ total c) (hmcl : len ≤ Z.mclbytes) :
    Pulls Z h c off len offp (mPulldown Z h c off len offp) := by
  have hoff : off ≤ total c := Nat.le_trans (Nat.le_add_right _ _) hlen
  obtain ⟨⟨pre, n, next, off'⟩, hptr⟩ :=
    Option.isSome_iff_exists.mp (mGetptr_isSome hc.ne hoff)
  obtain ⟨hcut, hoff', hin'⟩ := mGetptr_spec hptr
  have hat := fun type => pulldownAt_pulls offp type hc ⟨hcut, hoff', hin'⟩ hlen hmcl
  rcases c with _ | ⟨m0, c⟩
  · exact absurd rfl hc.ne
  · simp only [mPulldown, if_neg (Nat.not_lt.mpr hmcl), hptr]
    exact hat m0.type

end Whole

/-- Two mbufs with five bytes each. -/
def halves : List Mbuf :=
  [⟨0, 64, 5, 1, none, some 10⟩, ⟨1, 0, 5, 1, none, none⟩]

theorem halves_chain : Chain Sizes.amd64 (Heap.plain 2) halves where
  ne := by simp [halves]
  old := by simp [halves, Mbuf.Old, Heap.plain]
  inside := by simp [halves, Mbuf.Inside, Mbuf.base, Mbuf.cap, Sizes.amd64]
  nodup := by simp [halves]
  refs := by simp [halves, refsIn]
  pkthdr := by simp [halves, packetLen]
  fits := by simp [halves]

theorem pulldown_halves : Pulls Sizes.amd64 (Heap.plain 2) halves 3 4 true
    (mPulldown Sizes.amd64 (Heap.plain 2) halves 3 4 true) :=
  m_pulldown_pulls Sizes.amd64 (Heap.plain 2) halves 3 4 true halves_chain (by simp [halves])
    (by simp [Sizes.amd64])

end Obsd.MbufChain
