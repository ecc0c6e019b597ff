import Mathlib

/-!
# Defragmentation of 802.11 frames

`ieee80211_defrag` of `net80211/ieee80211_input.c` keeps the fragments of three
frames and adds each next one to the end of its chain. It reads the length and
the flags of a fragment after `m_cat`, which copies a small fragment behind the
data of the chain and then frees its mbuf. `defrag_runs` is about every run in
which no first mbuf of a fragment is freed so: what is returned is a whole frame.
-/

namespace Obsd.Defrag

/-! ## Mbufs -/

/-- An mbuf: its data, how much space is behind it, and its external buffer if any. -/
structure Mbuf where
  data : List UInt8
  space : Nat
  ext : Option Nat
deriving DecidableEq, Repr

/-- A chain with its `m_pkthdr.len`. -/
structure Packet where
  chain : List Mbuf
  len : Int
deriving DecidableEq, Repr

def bytes (chain : List Mbuf) : List UInt8 := chain.flatMap (·.data)

/-- The loop of `m_adj` over the head, and what is left to trim. -/
def trim : Nat → List Mbuf → List Mbuf × Nat
  | len, [] => ([], len)
  | len, m :: rest =>
      if len = 0 then (m :: rest, 0)
      else if m.data.length ≤ len then
        ({ m with data := [], space := m.space + m.data.length } ::
          (trim (len - m.data.length) rest).1, (trim (len - m.data.length) rest).2)
      else ({ m with data := m.data.drop len } :: rest, 0)

def mAdj (p : Packet) (len : Nat) : Packet :=
  ⟨(trim len p.chain).1, p.len - (len - (trim len p.chain).2)⟩

/-- `M_READONLY`, when these external buffers are shared or are no clusters. -/
def mReadonly (shared : Nat → Bool) (m : Mbuf) : Bool :=
  match m.ext with
  | none => false
  | some buf => shared buf

/-- Whether `m_cat` joins `n` to `m`. Else it copies the data, and frees `n`. -/
def joins (shared : Nat → Bool) (m n : Mbuf) : Bool :=
  mReadonly shared m || decide (m.space < n.data.length)

/-- `m_cat` from the last mbuf of the first chain on. -/
def catLast (shared : Nat → Bool) (m : Mbuf) : List Mbuf → List Mbuf
  | [] => [m]
  | n :: rest =>
      if joins shared m n then m :: n :: rest
      else catLast shared
        { m with data := m.data ++ n.data, space := m.space - n.data.length } rest

def mCat (shared : Nat → Bool) : List Mbuf → List Mbuf → List Mbuf
  | [], n => n
  | [m], n => catLast shared m n
  | m :: m' :: rest, n => m :: mCat shared (m' :: rest) n

/-- Whether `m_cat` frees the first mbuf of the second chain. -/
def freesFirst (shared : Nat → Bool) (m n : List Mbuf) : Bool :=
  match m.getLast?, n with
  | some last, first :: _ => !joins shared last first
  | _, _ => false

/-! ## Frames -/

/-- `mtod(m, struct ieee80211_frame *)` -/
def Packet.wh (p : Packet) : List UInt8 := (p.chain.headD ⟨[], 0, none⟩).data

/-- The bits of `IEEE80211_FC0_TYPE_MASK` -/
def typeBits (wh : List UInt8) : UInt8 := wh.getD 0 0 &&& 0x0c

/-- `IEEE80211_FC1_MORE_FRAG` of a flags byte -/
def moreFrag (fc1 : UInt8) : Bool := fc1 &&& 0x04 != 0

def addr1 (wh : List UInt8) : List UInt8 := (wh.drop 4).take 6
def addr2 (wh : List UInt8) : List UInt8 := (wh.drop 10).take 6
def rxseq (wh : List UInt8) : Nat := (wh.getD 22 0).toNat + (wh.getD 23 0).toNat * 256
def seqNo (wh : List UInt8) : Nat := rxseq wh / 16
def fragNo (wh : List UInt8) : Nat := rxseq wh % 16

/-! ## The fragment cache -/

/-- A `struct ieee80211_defrag`; `timer` is whether `df_to` is pending. -/
structure Entry where
  m : Option Packet
  seq : Nat
  frag : Nat
  timer : Bool

structure Ic where
  defrag : Nat → Entry
  cur : Nat

def Ic.start : Ic := ⟨fun _ => ⟨none, 0, 0, false⟩, 0⟩

/-- A call: the frame, which buffers are shared then, and what `m_pkthdr.len` and `i_fc[1]` of
the frame are read as once its first mbuf is freed. -/
structure Call where
  m : Packet
  hdrlen : Nat
  shared : Nat → Bool
  junk : Int × UInt8

/-- The entry is that of the fragment before this one. -/
def isNext (e : Entry) (wh : List UInt8) : Bool :=
  match e.m with
  | none => false
  | some df => decide (e.seq = seqNo wh) && decide (e.frag + 1 = fragNo wh) &&
      decide (typeBits wh = typeBits df.wh) && decide (addr1 wh = addr1 df.wh) &&
      decide (addr2 wh = addr2 df.wh)

/-- The loop over the `IEEE80211_DEFRAG_SIZE` entries. -/
def search (ic : Ic) (wh : List UInt8) : Option Nat :=
  (List.range 3).find? fun i => isNext (ic.defrag i) wh

def ieee80211Defrag (ic : Ic) (c : Call) : Ic × Option Packet :=
  let wh := c.m.wh
  if fragNo wh = 0 ∧ moreFrag (wh.getD 1 0) = false then (ic, some c.m)
  else if fragNo wh = 0 then
    let cur := if ic.cur + 1 = 3 then 0 else ic.cur + 1
    (⟨Function.update ic.defrag cur ⟨some c.m, seqNo wh, 0, true⟩, cur⟩, none)
  else
    match search ic wh with
    | none => (ic, none)
    | some i =>
        let e := ic.defrag i
        let df := e.m.getD ⟨[], 0⟩
        let m := mAdj c.m c.hdrlen
        let (len, fc1) :=
          if freesFirst c.shared df.chain m.chain then c.junk else (m.len, wh.getD 1 0)
        let df := ⟨mCat c.shared df.chain m.chain, df.len + len⟩
        if moreFrag fc1 then
          (⟨Function.update ic.defrag i ⟨some df, e.seq, fragNo wh, e.timer⟩, ic.cur⟩, none)
        else
          (⟨Function.update ic.defrag i ⟨none, e.seq, fragNo wh, false⟩, ic.cur⟩, some df)

/-- `ieee80211_defrag_timeout` of an entry whose timer runs -/
def defragTimeout (ic : Ic) (i : Nat) : Ic :=
  let e := ic.defrag i
  if e.timer then ⟨Function.update ic.defrag i ⟨none, e.seq, e.frag, false⟩, ic.cur⟩ else ic

inductive Event where
  | input (c : Call)
  | timeout (i : Nat)

def step (ic : Ic) : Event → Ic × Option Packet
  | .input c => ieee80211Defrag ic c
  | .timeout i => (defragTimeout ic i, none)

/-! ## What a returned frame should be -/

/-- The packet is that of fragment 0 with the bodies of the others behind it, and its length is
right. All are of one sequence number, type and addresses. -/
structure Joined (first : Call) (rest : List Call) (p : Packet) : Prop where
  numbers : (first :: rest).map (fun f => fragNo f.m.wh) = List.range (rest.length + 1)
  same : ∀ f ∈ rest, seqNo f.m.wh = seqNo first.m.wh ∧ typeBits f.m.wh = typeBits first.m.wh ∧
    addr1 f.m.wh = addr1 first.m.wh ∧ addr2 f.m.wh = addr2 first.m.wh
  bytes : bytes p.chain =
    bytes first.m.chain ++ rest.flatMap fun f => (Defrag.bytes f.m.chain).drop f.hdrlen
  len : p.len = (Defrag.bytes p.chain).length

/-- An unfragmented frame that is the last one received, or a frame of received fragments, of
which the last one only has no more behind it. -/
def Right (received : List Call) (p : Packet) : Prop :=
  (∃ c ∈ received.getLast?, p = c.m ∧ fragNo c.m.wh = 0 ∧ moreFrag (c.m.wh.getD 1 0) = false ∧
    p.len = (bytes p.chain).length) ∨
  ∃ first rest last, (first :: (rest ++ [last])).Sublist received ∧
    Joined first (rest ++ [last]) p ∧ (∀ f ∈ first :: rest, moreFrag (f.m.wh.getD 1 0) = true) ∧
    moreFrag (last.m.wh.getD 1 0) = false

/-! ## Chains -/

@[simp] theorem bytes_nil : bytes [] = [] := rfl

@[simp] theorem bytes_cons (m : Mbuf) (chain : List Mbuf) :
    bytes (m :: chain) = m.data ++ bytes chain := rfl

theorem trim_spec (len : Nat) (chain : List Mbuf) :
    bytes (trim len chain).1 = (bytes chain).drop len ∧
      (trim len chain).2 = len - (bytes chain).length := by
  induction chain generalizing len with
  | nil => exact ⟨List.drop_nil.symm, rfl⟩
  | cons m rest ih =>
      rw [trim, bytes_cons, List.length_append]
      split
      · rename_i hzero
        rw [hzero]
        exact ⟨rfl, (Nat.zero_sub _).symm⟩
      · split
        · rename_i hall
          obtain ⟨hbytes, hleft⟩ := ih (len - m.data.length)
          rw [List.drop_append, List.drop_eq_nil_of_le hall, hleft]
          exact ⟨hbytes, by omega⟩
        · rename_i hsome
          rw [List.drop_append_of_le_length (by omega)]
          exact ⟨rfl, by omega⟩

theorem mAdj_spec {p : Packet} (hlen : p.len = (bytes p.chain).length) (len : Nat) :
    bytes (mAdj p len).chain = (bytes p.chain).drop len ∧
      (mAdj p len).len = (bytes (mAdj p len).chain).length := by
  obtain ⟨hbytes, hleft⟩ := trim_spec len p.chain
  refine ⟨hbytes, ?_⟩
  rw [mAdj, hbytes, hleft, hlen, List.length_drop]
  dsimp only
  omega

theorem catLast_spec (shared : Nat → Bool) (m : Mbuf) (n : List Mbuf) :
    bytes (catLast shared m n) = m.data ++ bytes n ∧
      ∃ first rest t, catLast shared m n = first :: rest ∧ first.data = m.data ++ t := by
  induction n generalizing m with
  | nil => exact ⟨rfl, m, [], [], rfl, (List.append_nil _).symm⟩
  | cons n rest ih =>
      rw [catLast]
      split
      · exact ⟨rfl, m, _, [], rfl, (List.append_nil _).symm⟩
      · obtain ⟨hbytes, first, tail, t, heq, hdata⟩ :=
          ih { m with data := m.data ++ n.data, space := m.space - n.data.length }
        refine ⟨?_, first, tail, n.data ++ t, heq, ?_⟩
        · rw [hbytes, bytes_cons, List.append_assoc]
        · rw [hdata, List.append_assoc]

/-- `m_cat` adds the bytes, and what was in the first mbuf stays at its beginning. -/
theorem mCat_spec (shared : Nat → Bool) {m : List Mbuf} (n : List Mbuf) (hm : m ≠ []) :
    bytes (mCat shared m n) = bytes m ++ bytes n ∧ mCat shared m n ≠ [] ∧
      ∃ t, (Packet.mk (mCat shared m n) 0).wh = (Packet.mk m 0).wh ++ t := by
  induction m with
  | nil => exact absurd rfl hm
  | cons m rest ih =>
      cases rest with
      | nil =>
          obtain ⟨hbytes, first, tail, t, heq, hdata⟩ := catLast_spec shared m n
          rw [mCat, hbytes, heq]
          exact ⟨by rw [bytes_cons, bytes_nil, List.append_nil], List.cons_ne_nil _ _, t, hdata⟩
      | cons m' rest =>
          rw [mCat, bytes_cons, (ih (List.cons_ne_nil _ _)).1, bytes_cons m, List.append_assoc]
          exact ⟨rfl, List.cons_ne_nil _ _, [], (List.append_nil _).symm⟩

/-- The fields that fragments are matched by stay in the header. -/
theorem fields_append {wh : List UInt8} (t : List UInt8) (h : 24 ≤ wh.length) :
    typeBits (wh ++ t) = typeBits wh ∧ addr1 (wh ++ t) = addr1 wh ∧
      addr2 (wh ++ t) = addr2 wh := by
  have hfirst : (wh ++ t).getD 0 0 = wh.getD 0 0 := List.getD_append _ _ _ _ (by omega)
  refine ⟨by rw [typeBits, typeBits, hfirst], ?_, ?_⟩
  · rw [addr1, addr1, List.drop_append_of_le_length (by omega),
      List.take_append_of_le_length (by rw [List.length_drop]; omega)]
  · rw [addr2, addr2, List.drop_append_of_le_length (by omega),
      List.take_append_of_le_length (by rw [List.length_drop]; omega)]

/-! ## The cache -/

/-- What `ieee80211_input` has checked of a frame: its header is in the first mbuf. -/
structure Call.Ok (c : Call) : Prop where
  header : 24 ≤ c.m.wh.length
  len : c.m.len = (bytes c.m.chain).length

def more (c : Call) : Bool := moreFrag (c.m.wh.getD 1 0)

/-- The packet of an entry is that of some of the fragments received, none of them the last. -/
structure Entry.Holds (received : List Call) (e : Entry) (df : Packet) (first : Call)
    (rest : List Call) : Prop where
  sublist : (first :: rest).Sublist received
  joined : Joined first rest df
  more : ∀ f ∈ first :: rest, more f = true
  seq : e.seq = seqNo first.m.wh
  frag : e.frag = rest.length
  header : 24 ≤ df.wh.length
  fields : typeBits df.wh = typeBits first.m.wh ∧ addr1 df.wh = addr1 first.m.wh ∧
    addr2 df.wh = addr2 first.m.wh

def Inv (ic : Ic) (received : List Call) : Prop :=
  ∀ i df, (ic.defrag i).m = some df → ∃ first rest, (ic.defrag i).Holds received df first rest

/-- The fragment is not freed while it is added: the last mbuf of the chain is read-only, or has
less space than the first mbuf of the fragment has data. -/
def Kept (ic : Ic) (c : Call) : Prop :=
  ∀ i ∈ search ic c.m.wh,
    freesFirst c.shared ((ic.defrag i).m.getD ⟨[], 0⟩).chain (mAdj c.m c.hdrlen).chain = false

theorem chain_ne {p : Packet} (h : 24 ≤ p.wh.length) : p.chain ≠ [] := by
  intro hnil
  rw [Packet.wh, hnil] at h
  exact absurd h (by decide)

theorem search_spec {ic : Ic} {wh : List UInt8} {i : Nat} (h : search ic wh = some i) :
    ∃ df, (ic.defrag i).m = some df ∧ (ic.defrag i).seq = seqNo wh ∧
      (ic.defrag i).frag + 1 = fragNo wh ∧ typeBits wh = typeBits df.wh ∧
      addr1 wh = addr1 df.wh ∧ addr2 wh = addr2 df.wh := by
  have hnext := List.find?_some h
  unfold isNext at hnext
  split at hnext
  · exact absurd hnext Bool.false_ne_true
  · rename_i df hdf
    simp only [Bool.and_eq_true, decide_eq_true_eq] at hnext
    obtain ⟨⟨⟨⟨hseq, hfrag⟩, htype⟩, h1⟩, h2⟩ := hnext
    exact ⟨df, hdf, hseq, hfrag, htype, h1, h2⟩

/-- A fragment that is next is added to the packet. -/
theorem joined_next {received : List Call} {e : Entry} {df : Packet} {first c : Call}
    {rest : List Call} (h : e.Holds received df first rest) (hc : c.Ok)
    (hfrag : e.frag + 1 = fragNo c.m.wh) (hseq : e.seq = seqNo c.m.wh)
    (hfields : typeBits c.m.wh = typeBits df.wh ∧ addr1 c.m.wh = addr1 df.wh ∧
      addr2 c.m.wh = addr2 df.wh) :
    Joined first (rest ++ [c])
      ⟨mCat c.shared df.chain (mAdj c.m c.hdrlen).chain, df.len + (mAdj c.m c.hdrlen).len⟩ := by
  obtain ⟨hbytes, hlen⟩ := mAdj_spec hc.len c.hdrlen
  have hcat := (mCat_spec c.shared (mAdj c.m c.hdrlen).chain (chain_ne h.header)).1
  obtain ⟨htype, h1, h2⟩ := h.fields
  refine ⟨?_, fun f hf => ?_, ?_, ?_⟩
  · rw [← List.cons_append, List.map_append, h.joined.numbers, List.length_append]
    change _ ++ [fragNo c.m.wh] = List.range (rest.length + 1 + 1)
    rw [← hfrag, h.frag]
    exact List.range_succ.symm
  · rcases List.mem_append.mp hf with hf | hf
    · exact h.joined.same f hf
    · obtain rfl := List.mem_singleton.mp hf
      exact ⟨by rw [← hseq, h.seq], hfields.1.trans htype, hfields.2.1.trans h1,
        hfields.2.2.trans h2⟩
  · rw [hcat, h.joined.bytes, hbytes, List.flatMap_append, List.append_assoc]
    simp only [List.flatMap_cons, List.flatMap_nil, List.append_nil]
  · rw [hcat, List.length_append, hlen, h.joined.len, Int.natCast_add]

theorem holds_mono {received : List Call} {e : Entry} {df : Packet} {first : Call}
    {rest : List Call} (h : e.Holds received df first rest) (c : Call) :
    e.Holds (received ++ [c]) df first rest :=
  { h with sublist := h.sublist.trans (List.sublist_append_left _ _) }

theorem inv_update {ic : Ic} {received : List Call} (h : Inv ic received) (c : Call) {i cur : Nat}
    {e : Entry} (he : ∀ df, e.m = some df → ∃ first rest, e.Holds (received ++ [c]) df first rest) :
    Inv ⟨Function.update ic.defrag i e, cur⟩ (received ++ [c]) := by
  intro j df hdf
  dsimp only at hdf ⊢
  by_cases hj : j = i
  · subst hj
    rw [Function.update_self] at hdf ⊢
    exact he df hdf
  · rw [Function.update_of_ne hj] at hdf ⊢
    obtain ⟨first, rest, hholds⟩ := h j df hdf
    exact ⟨first, rest, holds_mono hholds c⟩

theorem inv_append {ic : Ic} {received : List Call} (h : Inv ic received) (c : Call) :
    Inv ic (received ++ [c]) := by
  intro i df hdf
  obtain ⟨first, rest, hholds⟩ := h i df hdf
  exact ⟨first, rest, holds_mono hholds c⟩

/-- A first fragment. -/
theorem holds_first {received : List Call} {c : Call} (hc : c.Ok) (hzero : fragNo c.m.wh = 0)
    (hmore : more c = true) :
    (Entry.mk (some c.m) (seqNo c.m.wh) 0 true).Holds (received ++ [c]) c.m c [] where
  sublist := List.sublist_append_right _ _
  joined :=
    { numbers := by rw [List.map_singleton, hzero]; rfl
      same := fun f hf => absurd hf List.not_mem_nil
      bytes := by rw [List.flatMap_nil, List.append_nil]
      len := hc.len }
  more := fun f hf => by rwa [List.mem_singleton.mp hf]
  seq := rfl
  frag := rfl
  header := hc.header
  fields := ⟨rfl, rfl, rfl⟩

/-- A fragment with more behind it. -/
theorem holds_next {received : List Call} {e : Entry} {df : Packet} {first c : Call}
    {rest : List Call} (h : e.Holds received df first rest) (hmore : more c = true)
    (hfrag : e.frag + 1 = fragNo c.m.wh) {n : List Mbuf} {len : Int}
    (hjoined : Joined first (rest ++ [c]) ⟨mCat c.shared df.chain n, len⟩) :
    (Entry.mk (some ⟨mCat c.shared df.chain n, len⟩) e.seq (fragNo c.m.wh) e.timer).Holds
      (received ++ [c]) ⟨mCat c.shared df.chain n, len⟩ first (rest ++ [c]) := by
  obtain ⟨-, -, t, ht⟩ := mCat_spec c.shared n (chain_ne h.header)
  have hwh : (Packet.mk (mCat c.shared df.chain n) len).wh = df.wh ++ t := ht
  obtain ⟨htype, h1, h2⟩ := fields_append t h.header
  obtain ⟨htype', h1', h2'⟩ := h.fields
  refine ⟨?_, hjoined, fun f hf => ?_, h.seq, ?_, ?_, ?_⟩
  · exact h.sublist.append (List.Sublist.refl [c])
  · rw [← List.cons_append, List.mem_append, List.mem_singleton] at hf
    rcases hf with hf | rfl
    · exact h.more f hf
    · exact hmore
  · rw [List.length_append, ← h.frag]
    exact hfrag.symm
  · rw [hwh, List.length_append]
    exact Nat.le_trans h.header (Nat.le_add_right _ _)
  · rw [hwh]
    exact ⟨htype.trans htype', h1.trans h1', h2.trans h2'⟩

/-- One call. -/
theorem defrag_inv {ic : Ic} {received : List Call} {c : Call} (h : Inv ic received) (hc : c.Ok)
    (hkept : Kept ic c) : Inv (ieee80211Defrag ic c).1 (received ++ [c]) ∧
      ∀ p, (ieee80211Defrag ic c).2 = some p → Right (received ++ [c]) p := by
  unfold ieee80211Defrag
  dsimp only
  split
  · rename_i hwhole
    refine ⟨inv_append h c, fun p hp => .inl ⟨c, List.getLast?_concat, ?_⟩⟩
    obtain rfl := Option.some.inj hp
    exact ⟨rfl, hwhole.1, hwhole.2, hc.len⟩
  · rename_i hpart
    split
    · rename_i hzero
      refine ⟨inv_update h c fun df hdf => ?_, fun p hp => absurd hp (by simp)⟩
      obtain rfl := Option.some.inj hdf
      exact ⟨c, [], holds_first hc hzero (Bool.not_eq_false _ ▸ fun hno => hpart ⟨hzero, hno⟩)⟩
    · split
      · exact ⟨inv_append h c, fun p hp => absurd hp (by simp)⟩
      · rename_i i hsearch
        obtain ⟨df, hdf, hseq, hfrag, hfields⟩ := search_spec hsearch
        obtain ⟨first, rest, hholds⟩ := h i df hdf
        have hgone := hkept i hsearch
        have hjoined := joined_next hholds hc hfrag hseq hfields
        rw [hdf, Option.getD_some] at hgone ⊢
        rw [hgone]
        by_cases hmore : moreFrag (c.m.wh.getD 1 0) = true
        · rw [if_neg Bool.false_ne_true, if_pos hmore]
          refine ⟨inv_update h c fun df' hdf' => ?_, fun p hp => absurd hp (by simp)⟩
          obtain rfl := Option.some.inj hdf'
          exact ⟨first, rest ++ [c], holds_next hholds hmore hfrag hjoined⟩
        · rw [if_neg Bool.false_ne_true, if_neg hmore]
          refine ⟨inv_update h c fun df' hdf' => absurd hdf' (by simp), fun p hp => .inr ?_⟩
          obtain rfl := Option.some.inj hp
          refine ⟨first, rest, c, ?_, hjoined, hholds.more, Bool.eq_false_iff.mpr hmore⟩
          exact hholds.sublist.append (List.Sublist.refl [c])

/-! ## Runs -/

def run (ic : Ic) (evs : List Event) : Ic := evs.foldl (fun ic ev => (step ic ev).1) ic

/-- The frames of a run. -/
def received (evs : List Event) : List Call :=
  evs.filterMap fun
    | .input c => some c
    | .timeout _ => none

theorem inv_start : Inv .start [] := fun _ _ h => absurd h (by simp [Ic.start])

theorem timeout_inv {ic : Ic} {calls : List Call} (h : Inv ic calls) (i : Nat) :
    Inv (defragTimeout ic i) calls := by
  intro j df hdf
  unfold defragTimeout at hdf ⊢
  dsimp only at hdf ⊢
  split at hdf
  · rename_i hpending
    rw [if_pos hpending]
    dsimp only at hdf ⊢
    by_cases hj : j = i
    · subst hj
      exact absurd hdf (by simp)
    · rw [Function.update_of_ne hj] at hdf ⊢
      exact h j df hdf
  · rename_i hidle
    rw [if_neg hidle]
    exact h j df hdf

/-- Every frame is as `ieee80211_input` passes it on, and no fragment is freed while it is added
to the packet. -/
def AllKept (evs : List Event) : Prop :=
  ∀ pre c post, evs = pre ++ .input c :: post → c.Ok ∧ Kept (run .start pre) c

theorem run_inv (evs : List Event) (h : AllKept evs) :
    Inv (run .start evs) (received evs) := by
  induction evs using List.reverseRecOn with
  | nil => exact inv_start
  | append_singleton evs ev ih =>
      have hbefore := ih fun pre c post heq => h pre c (post ++ [ev]) (by rw [heq]; simp)
      rw [run, List.foldl_append, received, List.filterMap_append]
      cases ev with
      | input c =>
          obtain ⟨hok, hkept⟩ := h evs c [] rfl
          exact (defrag_inv hbefore hok hkept).1
      | timeout i =>
          rw [List.filterMap_cons_none rfl, List.filterMap_nil, List.append_nil]
          exact timeout_inv hbefore i

/-- In every run in which no fragment is freed while it is added, every frame returned is an
unfragmented one, or made of fragments 0 to the last in order. -/
theorem defrag_runs (evs : List Event) (h : AllKept evs) (pre : List Event) (c : Call)
    (post : List Event) (heq : evs = pre ++ .input c :: post) (p : Packet)
    (hp : (ieee80211Defrag (run .start pre) c).2 = some p) : Right (received pre ++ [c]) p := by
  obtain ⟨hok, hkept⟩ := h pre c post heq
  have hbefore := run_inv pre fun pre' c' post' heq' =>
    h pre' c' (post' ++ .input c :: post) (by rw [heq, heq']; simp)
  exact (defrag_inv hbefore hok hkept).2 p hp

/-- A fragment of one byte in one mbuf, and what is read of it when that is freed. -/
def fragment (n fc1 : UInt8) (space : Nat) (junk : Int × UInt8) : Call :=
  ⟨⟨[⟨[0x08, fc1] ++ List.replicate 20 0 ++ [n, 0, n], space, none⟩], 25⟩, 24, fun _ => false, junk⟩

/-- Two fragments, the first in an mbuf without space. -/
theorem defrag_two : Right (received [.input (fragment 0 4 0 (0, 0))] ++ [fragment 1 0 0 (0, 0)])
    ⟨[⟨[0x08, 4] ++ List.replicate 20 0 ++ [0, 0, 0], 0, none⟩, ⟨[1], 0, none⟩], 26⟩ := by
  refine defrag_runs [.input (fragment 0 4 0 (0, 0)), .input (fragment 1 0 0 (0, 0))] ?_
    [.input (fragment 0 4 0 (0, 0))] (fragment 1 0 0 (0, 0)) [] rfl _ (by decide)
  intro pre c post heq
  match pre, heq with
  | [], heq =>
      obtain ⟨rfl, -⟩ : fragment 0 4 0 (0, 0) = c ∧ _ := by simpa using heq
      exact ⟨⟨by decide, by decide⟩, by unfold Kept; decide⟩
  | [_], heq =>
      obtain ⟨rfl, rfl, -⟩ : Event.input (fragment 0 4 0 (0, 0)) = _ ∧
        fragment 1 0 0 (0, 0) = c ∧ _ := by simpa using heq
      exact ⟨⟨by decide, by decide⟩, by unfold Kept; decide⟩
  | _ :: _ :: pre, heq => exact absurd (congrArg List.length heq) (by simp)

/-- With space for the second fragment in the first mbuf, its length is read when it is freed,
and whether there is a third. -/
theorem defrag_freed : ∃ p, (ieee80211Defrag (run .start [.input (fragment 0 4 100 (0, 0))])
    (fragment 1 4 0 (0, 0))).2 = some p ∧
      ¬Right (received [.input (fragment 0 4 100 (0, 0))] ++ [fragment 1 4 0 (0, 0)]) p := by
  refine ⟨⟨[⟨[0x08, 4] ++ List.replicate 20 0 ++ [0, 0, 0, 1], 99, none⟩], 25⟩, by decide, ?_⟩
  rintro (⟨_, _, _, _, _, hlen⟩ | ⟨_, _, _, _, hjoined, _⟩)
  · exact absurd hlen (by decide)
  · exact absurd hjoined.len (by decide)

end Obsd.Defrag
