import Obsd.MbufAdj
import Obsd.MbufCopy

/-!
# Splitting an mbuf chain

`m_split` (`uipc_mbuf.c`) makes two chains of one. The mbuf in which the
second begins is divided: a new mbuf refers to the same external buffer, or
gets a copy of the bytes. With a packet header the second chain begins with a
new header mbuf; when it has no space for the bytes, it is to be empty, and
`m_split` calls itself for the rest without a header.

What is in `m_len` of a new mbuf is not known (`Heap.junk`), and what does not
depend on it has been set.
-/

namespace Obsd.MbufChain

/-- The first loop: the mbuf with the end of the first `len` bytes, and what is in it of them. -/
def splitPoint : List Mbuf → Nat → Option (List Mbuf × Mbuf × List Mbuf × Nat)
  | [], _ => none
  | m :: next, len =>
    if m.len < len then
      (splitPoint next (len - m.len)).map fun (pre, at', post, len) => (m :: pre, at', post, len)
    else some ([], m, next, len)

/-- From `extpacket` on: `n` gets the bytes of `m` from `len` on. -/
def extpacket (Z : Sizes) (h : Heap) (n m : Mbuf) (len : Nat) : Option (Mbuf × Heap) :=
  match m.ext with
  | some e =>
    some ({ n with ext := some e, data := m.data + len, len := m.len - len }, mclAddReference h e)
  | none =>
    (h.put Z n n.data (h.bytes m.store (m.data + len) (m.len - len))).map fun h =>
      ({ n with len := m.len - len }, h)

/-- The chain that stays, the one returned, and the heap. The calls are counted; the
header of `m0` is set last, as it is not read in between. -/
def mSplitRec (Z : Sizes) : Nat → Heap → List Mbuf → Nat → Option (List Mbuf × List Mbuf × Heap)
  | 0, _, _, _ => none
  | fuel + 1, h, c, len0 =>
    match c, splitPoint c len0 with
    | m0 :: _, some (pre, m, next, len) =>
      let cut := { m with len := len }
      if m0.pkthdr.isSome then
        match mGethdr Z h m0.type with
        | (none, h) => some (c, [], h)
        | (some n, h) =>
          match mDupPkthdr Z h n m0 with
          | (none, h) => some (c, [], mFree h n)
          | (some n, h) =>
            let n := { n with pkthdr := n.pkthdr.map fun l => l - len0 }
            if m.ext.isNone && decide (Z.mhlen < m.len - len) then
              let n := mhAlign Z n 0
              match mSplitRec Z fuel h (m :: next) len with
              | none => none
              | some (rest, [], h) => some (pre ++ rest, [], mFree h n)
              | some (rest, t, h) => some (onHeader (fun _ => len0) (pre ++ rest), n :: t, h)
            else
              let n := if m.ext.isNone then mhAlign Z n (m.len - len) else n
              (extpacket Z h n m len).map fun (n, h) =>
                (onHeader (fun _ => len0) (pre ++ [cut]), n :: next, h)
      else if m.len - len = 0 then some (pre ++ [m], next, h)
      else
        match mGet h m.type with
        | (none, h) => some (c, [], h)
        | (some n, h) =>
          (extpacket Z h (mAlign Z n (m.len - len)) m len).map fun (n, h) =>
            (pre ++ [cut], n :: next, h)
    | _, _ => some (c, [], h)

/-- The second call is for a chain without a packet header, and the last. -/
def mSplit (Z : Sizes) (h : Heap) (c : List Mbuf) (len0 : Nat) :
    Option (List Mbuf × List Mbuf × Heap) := mSplitRec Z (c.length + 1) h c len0

/-! ## The mbuf that is divided -/

section Parts

variable {Z : Sizes} {h h₀ h' : Heap} {c pre next : List Mbuf} {m m0 n : Mbuf} {len len0 : Nat}

theorem splitPoint_spec (hpoint : splitPoint c len0 = some (pre, m, next, len)) :
    c = pre ++ m :: next ∧ len0 = total pre + len ∧ len ≤ m.len := by
  induction c generalizing len0 pre with
  | nil => exact absurd hpoint (by simp [splitPoint])
  | cons a c ih =>
    rw [splitPoint] at hpoint
    split at hpoint
    · rename_i hlt
      obtain ⟨⟨pre', m', next', len'⟩, hrec, heq⟩ := Option.map_eq_some_iff.mp hpoint
      obtain ⟨rfl, rfl, rfl, rfl⟩ : a :: pre' = pre ∧ m' = m ∧ next' = next ∧ len' = len := by
        simpa using heq
      obtain ⟨hc, hlen, hle⟩ := ih hrec
      exact ⟨by rw [hc]; rfl, by rw [total_cons]; omega, hle⟩
    · rename_i hge
      obtain ⟨rfl, rfl, rfl, rfl⟩ : [] = pre ∧ a = m ∧ c = next ∧ len0 = len := by
        simpa using hpoint
      exact ⟨rfl, (Nat.zero_add _).symm, Nat.le_of_not_lt hge⟩

theorem splitPoint_isSome (hc : c ≠ []) (hlen : len0 ≤ total c) :
    (splitPoint c len0).isSome = true := by
  induction c generalizing len0 with
  | nil => exact absurd rfl hc
  | cons a c ih =>
    rw [total_cons] at hlen
    rw [splitPoint]
    split
    · rw [Option.isSome_map]
      refine ih ?_ (by omega)
      rintro rfl
      rw [total_nil] at hlen
      omega
    · rfl

theorem extpacket_spec (hb : Blank Z h₀ h n) (hm : m.Old h₀) (hin : m.Inside Z)
    (hlen : len ≤ m.len) (hroom : m.ext = none → n.data + (m.len - len) ≤ Z.mlen) :
    ∃ n' h', extpacket Z h n m len = some (n', h') ∧ Copies Z h₀ h' m len n' ∧
      n'.len = m.len - len ∧ n'.pkthdr = n.pkthdr := by
  have heq : extpacket Z h n m len = mCopyFill Z h n m len (m.len - len) false := by
    rcases he : m.ext with _ | e <;> simp only [extpacket, mCopyFill, he, Nat.min_self] <;> rfl
  rw [heq]
  have hfill := mCopyFill_spec len (m.len - len) false (fun hf => absurd hf Bool.false_ne_true)
    hb hm hin hlen (by rw [Nat.min_self]; exact hroom)
  simp only [fillLen, Bool.false_and, Bool.false_eq_true, if_false, Nat.min_self] at hfill
  exact hfill

/-- The two chains when the mbuf is divided. -/
structure Divides (Z : Sizes) (h h' : Heap) (c : List Mbuf) (len0 : Nat) (c0 t : List Mbuf) :
    Prop where
  head : h'.chain c0 = (h.chain c).take len0
  tail : h'.chain t = (h.chain c).drop len0
  inside : ∀ m ∈ c0 ++ t, m.Inside Z
  source : ∀ s : Store, s.id < h.next → h'.byte s = h.byte s

theorem divides (hpoint : splitPoint c len0 = some (pre, m, next, len)) (hold : ∀ m ∈ c, m.Old h)
    (hin : ∀ m ∈ c, m.Inside Z) (hn : Copies Z h h' m len n) (hnlen : n.len = m.len - len) :
    Divides Z h h' c len0 (pre ++ [{ m with len := len }]) (n :: next) := by
  obtain ⟨rfl, rfl, hle⟩ := splitPoint_spec hpoint
  have hmem : m ∈ pre ++ m :: next := List.mem_append_right _ List.mem_cons_self
  have hpre : h'.chain pre = h.chain pre :=
    hn.ext.chain fun a ha => hold a (List.mem_append_left _ ha)
  have hnext : h'.chain next = h.chain next :=
    hn.ext.chain fun a ha => hold a (List.mem_append_right _ (List.mem_cons_of_mem m ha))
  have hdata : h'.data m = h.data m := hn.ext.data (hold m hmem)
  have hndata : h'.data n = (h.data m).drop len := by
    rw [hn.data, hnlen, Heap.data, drop_bytes _ _ _ hle]
  refine ⟨?_, ?_, ?_, hn.ext.byte⟩
  · rw [chain_take_append, chain_append, hpre, chain_cons, chain_nil, List.append_nil,
      data_take h' hle, hdata, chain_take_in _ _ _ hle]
  · rw [chain_drop_append, chain_cons, hndata, hnext, chain_drop_in _ _ _ hle]
  · intro a ha
    have hcut : ({ m with len := len } : Mbuf).Inside Z :=
      ⟨(hin m hmem).1, Nat.le_trans (Nat.add_le_add_left hle _) (hin m hmem).2⟩
    rcases List.mem_append.mp ha with ha | ha
    · rcases List.mem_append.mp ha with ha | ha
      · exact hin a (List.mem_append_left _ ha)
      · rw [List.mem_singleton.mp ha]
        exact hcut
    · rcases List.mem_cons.mp ha with rfl | ha
      · exact hn.inside
      · exact hin a (List.mem_append_right _ (List.mem_cons_of_mem m ha))

theorem Divides.totals {c0 t : List Mbuf} (hd : Divides Z h h' c len0 c0 t)
    (hlen : len0 ≤ total c) : total c0 = len0 ∧ total t = total c - len0 := by
  have hhead := congrArg List.length hd.head
  have htail := congrArg List.length hd.tail
  rw [chain_length, List.length_take, chain_length, Nat.min_eq_left hlen] at hhead
  rw [chain_length, List.length_drop, chain_length] at htail
  exact ⟨hhead, htail⟩

/-- Aligned data is inside its area. -/
theorem align_le (Z : Sizes) (room len : Nat) (hlen : len ≤ room) :
    (room - len) / Z.long * Z.long + len ≤ room := by
  have := Nat.div_mul_le_self (room - len) Z.long
  omega

end Parts

/-! ## The two ways to split -/

section Ways

variable {Z : Sizes} {h : Heap} {c pre next : List Mbuf} {m m0 : Mbuf} {len len0 fuel : Nat}

/-- Without a packet header, when the end of the first chain is inside an mbuf. -/
theorem mSplitRec_plain (fuel : Nat) (hpoint : splitPoint c len0 = some (pre, m, next, len))
    (hhdr : packetLen c = none) (hold : m.Old h) (hin : m.Inside Z) (hrem : m.len - len ≠ 0) :
    (h.avail h.next = false ∧ mSplitRec Z (fuel + 1) h c len0 = some (c, [], h.tick)) ∨
    (h.avail h.next = true ∧ ∃ n h', mSplitRec Z (fuel + 1) h c len0 =
        some (pre ++ [{ m with len := len }], n :: next, h') ∧ Copies Z h h' m len n ∧
        n.len = m.len - len) := by
  obtain ⟨hc, -, hle⟩ := splitPoint_spec hpoint
  rcases c with _ | ⟨m0, c⟩
  · exact absurd hc (by simp)
  have hnone : ¬ m0.pkthdr.isSome = true := by
    rw [show m0.pkthdr = none from hhdr]
    exact Bool.false_ne_true
  simp only [mSplitRec, hpoint, if_neg hnone, if_neg hrem]
  rcases hav : h.avail h.next with _ | _
  · refine .inl ⟨rfl, ?_⟩
    rw [mGet, if_neg (by rw [hav]; exact Bool.false_ne_true)]
  · obtain ⟨n, hget, hb, hn, hdata⟩ := mGet_blank Z hav m.type
    have hcap : m.ext = none → (mAlign Z n (m.len - len)).data + (m.len - len) ≤ Z.mlen := by
      intro he
      have hm := hin.2
      rw [Mbuf.cap, he] at hm
      have hm' : m.data + m.len ≤ Z.mlen := hm
      show n.data + (Z.mlen - (m.len - len)) / Z.long * Z.long + (m.len - len) ≤ Z.mlen
      rw [hdata, Nat.zero_add]
      exact align_le Z Z.mlen (m.len - len) (by omega)
    have hb' : Blank Z h h.tick (mAlign Z n (m.len - len)) :=
      hb.congr rfl (Nat.le_add_right _ _)
    obtain ⟨n', h', hext, hcop, hlen', -⟩ := extpacket_spec hb' hold hin hle hcap
    refine .inr ⟨rfl, n', h', ?_, hcop, hlen'⟩
    rw [hget]
    simp only [hext, Option.map_some]

/-- And when it is between two mbufs. -/
theorem mSplitRec_between (fuel : Nat) (hpoint : splitPoint c len0 = some (pre, m, next, len))
    (hhdr : packetLen c = none) (hrem : m.len - len = 0) :
    mSplitRec Z (fuel + 1) h c len0 = some (pre ++ [m], next, h) := by
  obtain ⟨hc, -, -⟩ := splitPoint_spec hpoint
  rcases c with _ | ⟨m0, c⟩
  · exact absurd hc (by simp)
  have hnone : ¬ m0.pkthdr.isSome = true := by
    rw [show m0.pkthdr = none from hhdr]
    exact Bool.false_ne_true
  simp only [mSplitRec, hpoint, if_neg hnone, if_pos hrem]

/-- An mbuf with a packet header has no more data than `MHLEN`. -/
theorem pkthdr_none_of_long {Z : Sizes} {m : Mbuf} {k : Nat} (hin : m.Inside Z) (he : m.ext = none)
    (hlong : Z.mhlen < m.len - k) : m.pkthdr = none := by
  obtain ⟨hbase, hcap⟩ := hin
  simp only [Mbuf.base, Mbuf.cap, he] at hbase hcap
  rcases hp : m.pkthdr with _ | l
  · rfl
  · rw [hp, Option.isSome_some, if_pos rfl] at hbase
    omega

/-- With a packet header: a failure leaves the chain as it is; the second chain begins
with the new header mbuf and its data, or with an empty one whose length is not set. -/
theorem mSplitRec_header (hfuel : 0 < fuel)
    (hpoint : splitPoint c len0 = some (pre, m, next, len))
    (hhdr : (packetLen c).isSome = true) (hold : m.Old h) (hin : m.Inside Z) :
    (¬ (h.avail h.next = true ∧ h.avail (h.next + 1) = true ∧ h.avail (h.next + 2) = true) ∧
      ∃ h', mSplitRec Z (fuel + 1) h c len0 = some (c, [], h') ∧ Extends h h') ∨
    (¬ (m.ext = none ∧ Z.mhlen < m.len - len) ∧ ∃ n h', mSplitRec Z (fuel + 1) h c len0 =
        some (onHeader (fun _ => len0) (pre ++ [{ m with len := len }]), n :: next, h') ∧
        Copies Z h h' m len n ∧ n.len = m.len - len ∧
        n.pkthdr = (packetLen c).map fun l => l - (len0 : Int)) ∨
    ((m.ext = none ∧ Z.mhlen < m.len - len) ∧
      (h.avail h.next = true ∧ h.avail (h.next + 1) = true ∧ h.avail (h.next + 2) = true) ∧
      ∃ n n' h', mSplitRec Z (fuel + 1) h c len0 =
        some (onHeader (fun _ => len0) (pre ++ [{ m with len := len }]), n :: n' :: next, h') ∧
        n.len = h.junk h.next ∧ n'.len = m.len - len) := by
  obtain ⟨hc, hlen0, hle⟩ := splitPoint_spec hpoint
  rcases c with _ | ⟨m0, c⟩
  · exact absurd hc (by simp)
  have hsome : m0.pkthdr.isSome = true := hhdr
  simp only [mSplitRec, hpoint, if_pos hsome]
  rcases hav : h.avail h.next with _ | _
  · refine .inl ⟨fun hall => absurd hall.1 Bool.false_ne_true, h.tick, ?_, extends_tick h⟩
    rw [mGethdr, if_neg (by rw [hav]; exact Bool.false_ne_true)]
  obtain ⟨n₁, hget, hb₁, hjunk⟩ := mGethdr_blank Z hav m0.type
  simp only [hget]
  rcases hav' : h.avail (h.next + 1) with _ | _
  · have hav'' : h.tick.avail h.tick.next ≠ true := by
      show h.avail (h.next + 1) ≠ true
      rw [hav']
      exact Bool.false_ne_true
    refine .inl ⟨fun hall => absurd hall.2.1 Bool.false_ne_true, mFree h.tick.tick n₁, ?_, ?_⟩
    · rw [mDupPkthdr, if_neg hav'']
    · rw [mFree, hb₁.none]
      exact (extends_tick h).trans (extends_tick h.tick)
  obtain ⟨n₂, hdup, hb₂, hhdr₂, hdata₂, hlen₂⟩ :=
    mDupPkthdr_blank (h := h.tick) hav' hb₁ hsome
  simp only [hdup]
  have hb₃ : Blank Z h h.tick.tick { n₂ with pkthdr := n₂.pkthdr.map fun l => l - (len0 : Int) } :=
    hb₂.congr Option.isSome_map le_rfl
  have hhdr₃ : (n₂.pkthdr.map fun l => l - (len0 : Int)) =
      (packetLen (m0 :: c)).map fun l => l - (len0 : Int) := by
    rw [hhdr₂]
    rfl
  generalize hn₃ : ({ n₂ with pkthdr := n₂.pkthdr.map fun l => l - (len0 : Int) } : Mbuf) = n₃
    at hb₃
  have hdata₃ : n₃.data = Z.mlen - Z.mhlen := hn₃ ▸ hdata₂
  have hlen₃ : n₃.len = h.junk h.next := by rw [← hn₃, ← hjunk, ← hlen₂]
  replace hhdr₃ : n₃.pkthdr = (packetLen (m0 :: c)).map fun l => l - (len0 : Int) := hn₃ ▸ hhdr₃
  by_cases hlong : m.ext = none ∧ Z.mhlen < m.len - len
  · have hcond : (m.ext.isNone && decide (Z.mhlen < m.len - len)) = true := by
      rw [hlong.1, decide_eq_true hlong.2]
      rfl
    have hnone : m.pkthdr = none := pkthdr_none_of_long hin hlong.1 hlong.2
    have hpoint' : splitPoint (m :: next) len = some ([], m, next, len) := by
      rw [splitPoint, if_neg (Nat.not_lt.mpr hle)]
    have hold' : m.Old h.tick.tick :=
      ⟨Nat.lt_succ_of_lt (Nat.lt_succ_of_lt hold.1),
        fun e he => Nat.lt_succ_of_lt (Nat.lt_succ_of_lt (hold.2 e he))⟩
    rw [if_pos hcond]
    obtain ⟨fuel, rfl⟩ := Nat.exists_eq_add_one_of_ne_zero (Nat.ne_of_gt hfuel)
    rcases mSplitRec_plain fuel hpoint' hnone hold' hin
      (Nat.ne_of_gt (Nat.lt_of_le_of_lt (Nat.zero_le _) hlong.2)) with
      ⟨hav₂, hrec⟩ | ⟨hav₂, n', h', hrec, hcop, hlen'⟩
    · have hfail : ¬ h.avail (h.next + 2) = true := fun ht =>
        absurd (hav₂.symm.trans ht) Bool.false_ne_true
      refine .inl ⟨fun hall => hfail hall.2.2, _, ?_,
        (extends_tick h).trans ((extends_tick h.tick).trans (extends_tick _))⟩
      simp only [hrec, ← hc, mFree, mhAlign, hb₃.none]
    · refine .inr (.inr ⟨hlong, ⟨trivial, trivial, hav₂⟩, mhAlign Z n₃ 0, n', h', ?_, hlen₃, hlen'⟩)
      simp only [hrec, List.nil_append]
  · have hcond : ¬ (m.ext.isNone && decide (Z.mhlen < m.len - len)) = true := by
      rw [Bool.and_eq_true, Option.isNone_iff_eq_none, decide_eq_true_eq]
      exact hlong
    rw [if_neg hcond]
    refine .inr (.inl ⟨hlong, ?_⟩)
    rcases he : m.ext with _ | e
    · have hshort : m.len - len ≤ Z.mhlen := Nat.le_of_not_lt fun hlt => hlong ⟨he, hlt⟩
      have hroom : m.ext = none →
          (mhAlign Z n₃ (m.len - len)).data + (m.len - len) ≤ Z.mlen := fun _ => by
        have halign := align_le Z Z.mhlen (m.len - len) hshort
        have hmh := Z.mhlen_le
        show n₃.data + (Z.mhlen - (m.len - len)) / Z.long * Z.long + (m.len - len) ≤ Z.mlen
        omega
      have hb₄ : Blank Z h h.tick.tick (mhAlign Z n₃ (m.len - len)) :=
        hb₃.congr rfl (Nat.le_add_right _ _)
      obtain ⟨n', h', hext, hcop, hlen', hhdr'⟩ := extpacket_spec hb₄ hold hin hle hroom
      refine ⟨n', h', ?_, hcop, hlen', hhdr'.trans hhdr₃⟩
      simp only [Option.isNone_none, if_true, hext, Option.map_some]
    · obtain ⟨n', h', hext, hcop, hlen', hhdr'⟩ :=
        extpacket_spec hb₃ hold hin hle (fun hn => absurd (he.symm.trans hn) (by simp))
      refine ⟨n', h', ?_, hcop, hlen', hhdr'.trans hhdr₃⟩
      simp only [Option.isNone_some, Bool.false_eq_true, if_false, hext, Option.map_some]

end Ways

/-! ## The whole split -/

/-- What `m_split` is to do: divide the chain, with the packet lengths of both parts, or
return null and leave it as it was. -/
structure SplitRight (Z : Sizes) (h : Heap) (c : List Mbuf) (len0 : Nat) (c0 t : List Mbuf)
    (h' : Heap) : Prop where
  null : t = [] → c0 = c
  divides : t ≠ [] → Divides Z h h' c len0 c0 t
  pkthdr : t ≠ [] → (packetLen c).isSome = true →
    packetLen c0 = some (total c0 : Int) ∧ packetLen t = some (total t : Int)
  source : ∀ s : Store, s.id < h.next → h'.byte s = h.byte s

/-- The new header mbuf has the data, or there is no second chain for want of memory. -/
def SplitFits (Z : Sizes) (h : Heap) (c : List Mbuf) (len0 : Nat) : Prop :=
  ∀ pre m next len, splitPoint c len0 = some (pre, m, next, len) →
    (packetLen c).isSome = true → m.ext = none → Z.mhlen < m.len - len →
    ¬ (h.avail h.next = true ∧ h.avail (h.next + 1) = true ∧ h.avail (h.next + 2) = true)

section Whole

variable {Z : Sizes} {h h' : Heap} {c pre next : List Mbuf} {m n : Mbuf} {len len0 : Nat}

theorem divides_between (hpoint : splitPoint c len0 = some (pre, m, next, len))
    (hin : ∀ m ∈ c, m.Inside Z) (hrem : m.len - len = 0) :
    Divides Z h h c len0 (pre ++ [m]) next := by
  obtain ⟨rfl, rfl, hle⟩ := splitPoint_spec hpoint
  have heq : len = m.len := by omega
  subst heq
  refine ⟨?_, ?_, ?_, fun _ _ => rfl⟩
  · rw [chain_take_append, chain_take_past _ _ _ le_rfl, Nat.sub_self, List.take_zero,
      chain_append, chain_cons, chain_nil]
  · rw [chain_drop_append, chain_drop_past _ _ _ le_rfl, Nat.sub_self, List.drop_zero]
  · rw [List.append_assoc, List.singleton_append]
    exact hin

theorem packetLen_cut (pre next : List Mbuf) (m : Mbuf) (len : Nat) :
    packetLen (pre ++ [{ m with len := len }]) = packetLen (pre ++ m :: next) := by
  cases pre <;> rfl

theorem Divides.onHeader {c0 t : List Mbuf} (f : Int → Int) (hd : Divides Z h h' c len0 c0 t) :
    Divides Z h h' c len0 (onHeader f c0) t := by
  refine ⟨(onHeader_chain h' f c0).trans hd.head, hd.tail, fun a ha => ?_, hd.source⟩
  have htrims := onHeader_trims (f := f) (trims_refl c0)
  have hin : ∀ m ∈ c0, m.Inside Z := fun m hm => hd.inside m (List.mem_append_left _ hm)
  rcases List.mem_append.mp ha with ha | ha
  · exact trims_all htrims (fun _ _ => Trims.inside) hin a ha
  · exact hd.inside a (List.mem_append_right _ ha)

theorem splitRight_null (hext : Extends h h') : SplitRight Z h c len0 c [] h' :=
  ⟨fun _ => rfl, fun hne => absurd rfl hne, fun hne => absurd rfl hne, hext.byte⟩

theorem split_right (hc : Chain Z h c) (hlen : len0 ≤ total c) (hfits : SplitFits Z h c len0) :
    ∃ c0 t h', mSplit Z h c len0 = some (c0, t, h') ∧ SplitRight Z h c len0 c0 t h' := by
  obtain ⟨⟨pre, m, next, len⟩, hpoint⟩ :=
    Option.isSome_iff_exists.mp (splitPoint_isSome hc.ne hlen)
  obtain ⟨hcut, hlen0, hle⟩ := splitPoint_spec hpoint
  have hmem : m ∈ c := hcut ▸ List.mem_append_right _ List.mem_cons_self
  have hold := hc.old m hmem
  have hin := hc.inside m hmem
  have hfuel : 0 < c.length := List.length_pos_iff.mpr hc.ne
  rcases hpkt : packetLen c with _ | l
  · by_cases hrem : m.len - len = 0
    · have hd := divides_between (h := h) hpoint hc.inside hrem
      refine ⟨_, _, _, mSplitRec_between c.length hpoint hpkt hrem, fun hnil => ?_, fun _ => hd,
        fun _ hs => ?_, fun _ _ => rfl⟩
      · rw [hcut, hnil]
      · exact absurd hs (by rw [hpkt]; exact Bool.false_ne_true)
    · rcases mSplitRec_plain c.length hpoint hpkt hold hin hrem with
        ⟨-, hrec⟩ | ⟨-, n, h', hrec, hcop, hnlen⟩
      · exact ⟨_, _, _, hrec, splitRight_null (extends_tick h)⟩
      · have hd := divides hpoint hc.old hc.inside hcop hnlen
        refine ⟨_, _, _, hrec, fun hnil => absurd hnil (by simp), fun _ => hd, fun _ hs => ?_,
          hcop.ext.byte⟩
        exact absurd hs (by rw [hpkt]; exact Bool.false_ne_true)
  · have hsome : (packetLen c).isSome = true := by rw [hpkt]; rfl
    rcases mSplitRec_header hfuel hpoint hsome hold hin with
      ⟨-, h', hrec, hext⟩ | ⟨-, n, h', hrec, hcop, hnlen, hnhdr⟩ | ⟨⟨he, hlong⟩, hav, -⟩
    · exact ⟨_, _, _, hrec, splitRight_null hext⟩
    · have hd := (divides hpoint hc.old hc.inside hcop hnlen).onHeader fun _ => (len0 : Int)
      refine ⟨_, _, _, hrec, fun hnil => absurd hnil (by simp), fun _ => hd, fun _ _ => ?_,
        hcop.ext.byte⟩
      obtain ⟨htot0, htott⟩ := hd.totals hlen
      rw [htot0, htott, onHeader_packetLen, packetLen_cut pre next m len, ← hcut, hpkt]
      refine ⟨rfl, ?_⟩
      show n.pkthdr = _
      rw [hnhdr, hpkt, hc.pkthdr l hpkt, Option.map_some, Int.ofNat_sub hlen]
    · exact absurd hav (hfits pre m next len hpoint hsome he hlong)

/-- With one byte too many in the new header mbuf the second chain is too long. -/
theorem fits_of_split_right (hc : Chain Z h c) (hlen : len0 ≤ total c)
    (hright : ∀ junk, ∃ c0 t h', mSplit Z { h with junk := junk } c len0 = some (c0, t, h') ∧
      SplitRight Z { h with junk := junk } c len0 c0 t h') : SplitFits Z h c len0 := by
  intro pre m next len hpoint hsome he hlong hav
  obtain ⟨c0, t, h', heq, hr⟩ := hright fun _ => 1
  obtain ⟨hcut, hlen0, hle⟩ := splitPoint_spec hpoint
  have hmem : m ∈ c := hcut ▸ List.mem_append_right _ List.mem_cons_self
  have hold : m.Old { h with junk := fun _ => 1 } := hc.old m hmem
  have hfuel : 0 < c.length := List.length_pos_iff.mpr hc.ne
  rcases mSplitRec_header hfuel hpoint hsome hold (hc.inside m hmem) with
    ⟨hno, -⟩ | ⟨hno, -⟩ | ⟨-, -, n, n', h₁, hrec, hnlen, hnlen'⟩
  · exact hno hav
  · exact hno ⟨he, hlong⟩
  · obtain ⟨rfl, rfl, rfl⟩ : c0 = _ ∧ t = _ ∧ h' = h₁ := by simpa using heq.symm.trans hrec
    obtain ⟨-, htail⟩ := (hr.divides (by simp)).totals hlen
    have htotal : total c = total pre + (m.len + total next) := by
      rw [hcut, total_append, total_cons]
    have hone : n.len = 1 := hnlen
    rw [total_cons, total_cons, hone, hnlen', htotal, hlen0] at htail
    omega

end Whole

/-- `m_split` is right, whatever is in `m_len` of a new mbuf, exactly if the data after the
division has space with the new packet header, and `m_adj` always is. -/
theorem m_split_iff (Z : Sizes) (h : Heap) (c : List Mbuf) (hc : Chain Z h c) :
    (∀ len0 ≤ total c,
      ((∀ junk, ∃ c0 t h', mSplit Z { h with junk := junk } c len0 = some (c0, t, h') ∧
        SplitRight Z { h with junk := junk } c len0 c0 t h') ↔ SplitFits Z h c len0)) ∧
    ∀ k : Int, -2 ^ 31 ≤ k → k < 2 ^ 31 → ∃ c', mAdj c k = some c' ∧ Adjusts Z h c k c' := by
  refine ⟨fun len0 hlen => ⟨fits_of_split_right hc hlen, fun hfits junk => ?_⟩,
    fun k hlo hhi => mAdj_adjusts hc hlo hhi⟩
  exact split_right ⟨hc.ne, hc.old, hc.inside, hc.nodup, hc.refs, hc.pkthdr, hc.fits⟩ hlen hfits

/-- A packet of two mbufs. -/
def twoMbufs : List Mbuf :=
  [⟨0, 64, 10, 1, none, some 210⟩, ⟨1, 0, 200, 1, none, none⟩]

theorem twoMbufs_chain : Chain Sizes.amd64 (Heap.plain 2) twoMbufs where
  ne := by simp [twoMbufs]
  old := by simp [twoMbufs, Mbuf.Old, Heap.plain]
  inside := by simp [twoMbufs, Mbuf.Inside, Mbuf.base, Mbuf.cap, Sizes.amd64]
  nodup := by simp [twoMbufs]
  refs := by simp [twoMbufs, refsIn]
  pkthdr := by simp [twoMbufs, packetLen]
  fits := by simp [twoMbufs]

theorem split_fits : ∃ c0 t h',
    mSplit Sizes.amd64 { Heap.plain 2 with junk := fun _ => 7 } twoMbufs 100 = some (c0, t, h') ∧
      SplitRight Sizes.amd64 { Heap.plain 2 with junk := fun _ => 7 } twoMbufs 100 c0 t h' := by
  refine ((m_split_iff Sizes.amd64 (Heap.plain 2) twoMbufs twoMbufs_chain).1 100
    (by simp [twoMbufs])).mpr (fun pre m next len hpoint _ _ hlong => ?_) fun _ => 7
  obtain ⟨rfl, rfl, rfl, rfl⟩ : [twoMbufs.head (by simp [twoMbufs])] = pre ∧
      (⟨1, 0, 200, 1, none, none⟩ : Mbuf) = m ∧ [] = next ∧ 90 = len := by
    simpa [splitPoint, twoMbufs] using hpoint
  exact absurd hlong (by simp [Sizes.amd64])

/-- The new header mbuf is returned with whatever is in its `m_len`. -/
theorem split_length_unset : Chain Sizes.amd64 (Heap.plain 2) twoMbufs ∧ 20 ≤ total twoMbufs ∧
    ¬ ∀ junk, ∃ c0 t h',
      mSplit Sizes.amd64 { Heap.plain 2 with junk := junk } twoMbufs 20 = some (c0, t, h') ∧
        SplitRight Sizes.amd64 { Heap.plain 2 with junk := junk } twoMbufs 20 c0 t h' := by
  refine ⟨twoMbufs_chain, by simp [twoMbufs], fun hright => ?_⟩
  have hfits := fits_of_split_right twoMbufs_chain (by simp [twoMbufs]) hright
  exact hfits [⟨0, 64, 10, 1, none, some 210⟩] ⟨1, 0, 200, 1, none, none⟩ [] 10
    (by simp [splitPoint, twoMbufs]) rfl rfl (by simp [Sizes.amd64]) ⟨rfl, rfl, rfl⟩

end Obsd.MbufChain
