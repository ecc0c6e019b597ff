import Mathlib

/-!
# Mbufs and their storage

An mbuf (`sys/mbuf.h`) has its data in itself or in an external buffer, from
`m_data` on, `m_len` bytes. A chain is the list of its mbufs. What they hold
is in a heap of storage areas, one for each mbuf and each external buffer:
a byte is known by its area and its offset there, and mbufs that share a
cluster have the same area.

Memory that is allocated is an area of its own; whether there is any, and
what a new mbuf has in `m_len`, is up to the pools. A function that writes
outside an area, or panics, has no result.

Left out are what is only copied along, of the packet header and the flags,
packet tags, and the statistics of the pools.
-/

namespace Obsd.MbufChain

/-! ## Mbufs -/

/-- `MLEN`, `MHLEN`, `MCLBYTES` and `sizeof(long)`, which depend on the machine. -/
structure Sizes where
  mlen : Nat
  mhlen : Nat
  mclbytes : Nat
  long : Nat
  mhlen_pos : 0 < mhlen
  mhlen_le : mhlen ≤ mlen
  mlen_le : mlen ≤ mclbytes

/-- The sizes on amd64. -/
def Sizes.amd64 : Sizes := ⟨224, 160, 2048, 8, by decide, by decide, by decide⟩

/-- A storage area: `m_dat` of an mbuf, or an external buffer. -/
inductive Store where
  | dat (addr : Nat)
  | ext (buf : Nat)
deriving DecidableEq, Repr

/-- `m_ext`, with the flag `M_CLUSTER`. -/
structure Ext where
  buf : Nat
  size : Nat
  cluster : Bool
deriving DecidableEq, Repr

/-- A `struct mbuf`. Its data starts at offset `data` of the area. -/
structure Mbuf where
  addr : Nat
  data : Nat
  len : Nat
  type : Nat
  /-- `M_EXT` -/
  ext : Option Ext
  /-- `m_pkthdr.len`, with `M_PKTHDR`. -/
  pkthdr : Option Int
deriving DecidableEq, Repr

def Mbuf.store (m : Mbuf) : Store :=
  match m.ext with
  | none => .dat m.addr
  | some e => .ext e.buf

/-- Where the area of the data begins: with a packet header at `m_pktdat`. -/
def Mbuf.base (Z : Sizes) (m : Mbuf) : Nat :=
  match m.ext with
  | none => if m.pkthdr.isSome then Z.mlen - Z.mhlen else 0
  | some _ => 0

/-- And where it ends. -/
def Mbuf.cap (Z : Sizes) (m : Mbuf) : Nat :=
  match m.ext with
  | none => Z.mlen
  | some e => e.size

/-- The data lies inside the storage of the mbuf. -/
def Mbuf.Inside (Z : Sizes) (m : Mbuf) : Prop := m.base Z ≤ m.data ∧ m.data + m.len ≤ m.cap Z

/-- The length of a chain. -/
def total (c : List Mbuf) : Nat := (c.map Mbuf.len).sum

@[simp] theorem total_nil : total [] = 0 := rfl

@[simp] theorem total_cons (m : Mbuf) (c : List Mbuf) : total (m :: c) = m.len + total c := rfl

@[simp] theorem total_append (c c' : List Mbuf) : total (c ++ c') = total c + total c' := by
  simp [total]

/-! ## The heap -/

structure Heap where
  byte : Store → Nat → UInt8
  /-- How many mbufs refer to an external buffer. -/
  refs : Nat → Nat
  /-- The number of the next allocation. What is allocated is known by it. -/
  next : Nat
  /-- Whether an allocation succeeds. -/
  avail : Nat → Bool
  /-- What is in `m_len` of a new mbuf. -/
  junk : Nat → Nat

/-- A heap of zeros with free memory and `next` areas. -/
def Heap.plain (next : Nat) : Heap := ⟨fun _ _ => 0, fun _ => 1, next, fun _ => true, fun _ => 0⟩

def Store.id : Store → Nat
  | .dat addr => addr
  | .ext buf => buf

def Heap.bytes (h : Heap) (s : Store) (o n : Nat) : List UInt8 :=
  (List.range n).map fun i => h.byte s (o + i)

/-- The data of an mbuf. -/
def Heap.data (h : Heap) (m : Mbuf) : List UInt8 := h.bytes m.store m.data m.len

/-- The data of a chain. -/
def Heap.chain (h : Heap) (c : List Mbuf) : List UInt8 := c.flatMap h.data

def Heap.write (h : Heap) (s : Store) (o : Nat) (bs : List UInt8) : Heap :=
  { h with byte := fun s' k =>
      if s' = s ∧ o ≤ k ∧ k < o + bs.length then bs.getD (k - o) 0 else h.byte s' k }

/-- `bcopy` or `memcpy` of some bytes to offset `o` of the area of an mbuf. -/
def Heap.put (Z : Sizes) (h : Heap) (m : Mbuf) (o : Nat) (bs : List UInt8) : Option Heap :=
  if bs = [] then some h
  else if o + bs.length ≤ m.cap Z then some (h.write m.store o bs)
  else none

/-! ## Allocation -/

def Heap.tick (h : Heap) : Heap := { h with next := h.next + 1 }

def mGet (h : Heap) (type : Nat) : Option Mbuf × Heap :=
  (if h.avail h.next then some ⟨h.next, 0, h.junk h.next, type, none, none⟩ else none, h.tick)

def mGethdr (Z : Sizes) (h : Heap) (type : Nat) : Option Mbuf × Heap :=
  (if h.avail h.next then
    some ⟨h.next, Z.mlen - Z.mhlen, h.junk h.next, type, none, some 0⟩ else none, h.tick)

/-- `MCLGET`: without a cluster the mbuf stays as it is. -/
def mClget (Z : Sizes) (h : Heap) (m : Mbuf) : Mbuf × Heap :=
  if h.avail h.next then
    ({ m with data := 0, ext := some ⟨h.next, Z.mclbytes, true⟩ },
      { h.tick with refs := Function.update h.refs h.next 1 })
  else (m, h.tick)

/-- Copying the tags may fail. -/
def mDupPkthdr (Z : Sizes) (h : Heap) (dst src : Mbuf) : Option Mbuf × Heap :=
  (if h.avail h.next then
    some { dst with
      pkthdr := src.pkthdr
      data := if dst.ext = none then Z.mlen - Z.mhlen else dst.data }
    else none, h.tick)

/-- `M_ALIGN`: data of this length is to be at the end of the mbuf, on a longword. -/
def mAlign (Z : Sizes) (m : Mbuf) (len : Nat) : Mbuf :=
  { m with data := m.data + (Z.mlen - len) / Z.long * Z.long }

/-- `MH_ALIGN` -/
def mhAlign (Z : Sizes) (m : Mbuf) (len : Nat) : Mbuf :=
  { m with data := m.data + (Z.mhlen - len) / Z.long * Z.long }

/-- `MCLADDREFERENCE` -/
def mclAddReference (h : Heap) (e : Ext) : Heap :=
  { h with refs := Function.update h.refs e.buf (h.refs e.buf + 1) }

def mFree (h : Heap) (m : Mbuf) : Heap :=
  match m.ext with
  | none => h
  | some e => { h with refs := Function.update h.refs e.buf (h.refs e.buf - 1) }

def mFreem (h : Heap) (c : List Mbuf) : Heap := c.foldl mFree h

/-- `M_READONLY` -/
def mReadonly (h : Heap) (m : Mbuf) : Bool :=
  match m.ext with
  | none => false
  | some e => !e.cluster || decide (1 < h.refs e.buf)

def mLeadingspace (Z : Sizes) (h : Heap) (m : Mbuf) : Nat :=
  if mReadonly h m then 0 else m.data - m.base Z

def mTrailingspace (Z : Sizes) (h : Heap) (m : Mbuf) : Nat :=
  if mReadonly h m then 0 else m.cap Z - (m.data + m.len)

/-- The mbuf with the byte at `loc`, what is before and after it in the chain, and the
offset there. The end of the chain is in the last mbuf. -/
def mGetptr : List Mbuf → Nat → Option (List Mbuf × Mbuf × List Mbuf × Nat)
  | [], _ => none
  | m :: rest, loc =>
    if loc < m.len then some ([], m, rest, loc)
    else if rest = [] then
      if loc - m.len = 0 then some ([], m, [], m.len) else none
    else (mGetptr rest (loc - m.len)).map fun (pre, at', post, off) => (m :: pre, at', post, off)

/-! ## Bytes -/

section Bytes

variable {h h' : Heap} {s s' : Store} {o o' n k : Nat} {bs : List UInt8} {m : Mbuf}
  {c c' : List Mbuf}

@[simp] theorem bytes_length (h : Heap) (s : Store) (o n : Nat) : (h.bytes s o n).length = n := by
  simp [Heap.bytes]

@[simp] theorem bytes_zero (h : Heap) (s : Store) (o : Nat) : h.bytes s o 0 = [] := rfl

theorem bytes_congr (hb : ∀ k, o ≤ k → k < o + n → h'.byte s k = h.byte s k) :
    h'.bytes s o n = h.bytes s o n := by
  refine List.map_congr_left fun i hi => ?_
  have := List.mem_range.mp hi
  exact hb _ (by omega) (by omega)

theorem bytes_add (h : Heap) (s : Store) (o a b : Nat) :
    h.bytes s o (a + b) = h.bytes s o a ++ h.bytes s (o + a) b := by
  unfold Heap.bytes
  rw [List.range_add, List.map_append, List.map_map]
  congr 1
  refine List.map_congr_left fun i _ => ?_
  rw [Function.comp_apply, Nat.add_assoc]

theorem take_bytes (h : Heap) (s : Store) (o : Nat) {a n : Nat} (ha : a ≤ n) :
    (h.bytes s o n).take a = h.bytes s o a := by
  obtain ⟨b, rfl⟩ := Nat.exists_eq_add_of_le ha
  rw [bytes_add, List.take_left' (bytes_length _ _ _ _)]

theorem drop_bytes (h : Heap) (s : Store) (o : Nat) {a n : Nat} (ha : a ≤ n) :
    (h.bytes s o n).drop a = h.bytes s (o + a) (n - a) := by
  obtain ⟨b, rfl⟩ := Nat.exists_eq_add_of_le ha
  rw [bytes_add, List.drop_left' (bytes_length _ _ _ _), Nat.add_sub_cancel_left]

@[simp] theorem data_length (h : Heap) (m : Mbuf) : (h.data m).length = m.len :=
  bytes_length _ _ _ _

@[simp] theorem chain_nil (h : Heap) : h.chain [] = [] := rfl

@[simp] theorem chain_cons (h : Heap) (m : Mbuf) (c : List Mbuf) :
    h.chain (m :: c) = h.data m ++ h.chain c := rfl

@[simp] theorem chain_append (h : Heap) (c c' : List Mbuf) :
    h.chain (c ++ c') = h.chain c ++ h.chain c' := List.flatMap_append

@[simp] theorem chain_length (h : Heap) (c : List Mbuf) : (h.chain c).length = total c := by
  induction c with
  | nil => rfl
  | cons m c ih => rw [chain_cons, List.length_append, data_length, ih, total_cons]

/-- The first bytes of an mbuf. -/
theorem data_take (h : Heap) {m : Mbuf} {k : Nat} (hk : k ≤ m.len) :
    h.data { m with len := k } = (h.data m).take k := (take_bytes h m.store m.data hk).symm

/-- And those from `k` on. -/
theorem data_drop (h : Heap) {m : Mbuf} {k : Nat} (hk : k ≤ m.len) :
    h.data { m with len := m.len - k, data := m.data + k } = (h.data m).drop k :=
  (drop_bytes h m.store m.data hk).symm

theorem chain_drop_past (h : Heap) (m : Mbuf) (c : List Mbuf) {k : Nat} (hk : m.len ≤ k) :
    (h.chain (m :: c)).drop k = (h.chain c).drop (k - m.len) := by
  have hall : (h.data m).drop k = [] := List.drop_of_length_le (by rw [data_length]; exact hk)
  rw [chain_cons, List.drop_append, hall, data_length, List.nil_append]

theorem chain_drop_in (h : Heap) (m : Mbuf) (c : List Mbuf) {k : Nat} (hk : k ≤ m.len) :
    (h.chain (m :: c)).drop k = (h.data m).drop k ++ h.chain c :=
  List.drop_append_of_le_length (by rw [data_length]; exact hk)

theorem chain_take_past (h : Heap) (m : Mbuf) (c : List Mbuf) {k : Nat} (hk : m.len ≤ k) :
    (h.chain (m :: c)).take k = h.data m ++ (h.chain c).take (k - m.len) := by
  have hall : (h.data m).take k = h.data m := List.take_of_length_le (by rw [data_length]; exact hk)
  rw [chain_cons, List.take_append, hall, data_length]

theorem chain_take_in (h : Heap) (m : Mbuf) (c : List Mbuf) {k : Nat} (hk : k ≤ m.len) :
    (h.chain (m :: c)).take k = (h.data m).take k :=
  List.take_append_of_le_length (by rw [data_length]; exact hk)

/-- The bytes that are in the first mbuf, and in those after it. -/
theorem chain_slice (h : Heap) (m : Mbuf) (c : List Mbuf) {off : Nat} (hoff : off ≤ m.len)
    (len : Nat) : ((h.chain (m :: c)).drop off).take len =
      h.bytes m.store (m.data + off) (min (m.len - off) len) ++
        (h.chain c).take (len - (m.len - off)) := by
  rw [chain_drop_in _ _ _ hoff, List.take_append, Heap.data, drop_bytes _ _ _ hoff, bytes_length]
  rcases Nat.le_total (m.len - off) len with hle | hle
  · rw [Nat.min_eq_left hle, List.take_of_length_le (by rw [bytes_length]; exact hle)]
  · rw [Nat.min_eq_right hle, take_bytes _ _ _ hle]

/-- The bytes from a place on that is behind some mbufs. -/
theorem chain_drop_append (h : Heap) (c c' : List Mbuf) (k : Nat) :
    (h.chain (c ++ c')).drop (total c + k) = (h.chain c').drop k := by
  rw [chain_append, ← List.drop_drop, List.drop_left' (chain_length h c)]

theorem chain_take_append (h : Heap) (c c' : List Mbuf) (k : Nat) :
    (h.chain (c ++ c')).take (total c + k) = h.chain c ++ (h.chain c').take k := by
  rw [chain_append, ← chain_length h c, List.take_length_add_append]

theorem write_byte_of_ne (hs : s' ≠ s) : (h.write s o bs).byte s' = h.byte s' := by
  funext k
  exact if_neg fun hc => hs hc.1

theorem write_byte_of_outside (hk : k < o ∨ o + bs.length ≤ k) :
    (h.write s o bs).byte s k = h.byte s k :=
  if_neg (by omega)

/-- What is written is there. -/
theorem bytes_write (h : Heap) (s : Store) (o : Nat) (bs : List UInt8) :
    (h.write s o bs).bytes s o bs.length = bs := by
  refine List.ext_getElem (bytes_length _ _ _ _) fun i hi hi' => ?_
  simp only [Heap.bytes, List.getElem_map, List.getElem_range, Heap.write]
  rw [if_pos ⟨trivial, by omega, by omega⟩, Nat.add_sub_cancel_left, List.getD_eq_getElem _ _ hi']

theorem write_nil (h : Heap) (s : Store) (o : Nat) : h.write s o [] = h := by
  have hbyte : (h.write s o []).byte = h.byte := by
    funext s' k
    exact if_neg fun hc => Nat.lt_irrefl _ (Nat.lt_of_le_of_lt hc.2.1 hc.2.2)
  exact congrArg (fun byte => { h with byte := byte }) hbyte

/-- A write into its area succeeds. -/
theorem put_eq {Z : Sizes} (hcap : bs = [] ∨ o + bs.length ≤ m.cap Z) :
    h.put Z m o bs = some (h.write m.store o bs) := by
  unfold Heap.put
  by_cases hbs : bs = []
  · rw [if_pos hbs, hbs, write_nil]
  · rw [if_neg hbs, if_pos (hcap.resolve_left hbs)]

theorem put_none {Z : Sizes} (hbs : bs ≠ []) (hcap : ¬ o + bs.length ≤ m.cap Z) :
    h.put Z m o bs = none := by
  rw [Heap.put, if_neg hbs, if_neg hcap]

/-- Nothing but `n` bytes from `o` on in an area has changed. -/
structure Frame (s : Store) (o n : Nat) (h h' : Heap) : Prop where
  other : ∀ s', s' ≠ s → h'.byte s' = h.byte s'
  outside : ∀ k, k < o ∨ o + n ≤ k → h'.byte s k = h.byte s k
  next : h'.next = h.next
  avail : h'.avail = h.avail
  junk : h'.junk = h.junk

theorem Frame.refl (s : Store) (o n : Nat) (h : Heap) : Frame s o n h h :=
  ⟨fun _ _ => rfl, fun _ _ => rfl, rfl, rfl, rfl⟩

/-- One write after another, in the bytes that follow. -/
theorem Frame.append {h'' : Heap} {a b : Nat} (h₁ : Frame s o a h h')
    (h₂ : Frame s (o + a) b h' h'') : Frame s o (a + b) h h'' where
  other s' hs := (h₂.other s' hs).trans (h₁.other s' hs)
  outside k hk := by
    rw [h₂.outside k (by omega), h₁.outside k (by omega)]
  next := h₂.next.trans h₁.next
  avail := h₂.avail.trans h₁.avail
  junk := h₂.junk.trans h₁.junk

/-- Bytes before what is written. -/
theorem Frame.before (hf : Frame s o n h h') {a : Nat} (ha : o' + a ≤ o) :
    h'.bytes s o' a = h.bytes s o' a :=
  bytes_congr fun k _ hk => hf.outside k (.inl (by omega))

/-- Bytes behind it. -/
theorem Frame.behind (hf : Frame s o n h h') {a : Nat} (ha : o + n ≤ o') :
    h'.bytes s o' a = h.bytes s o' a :=
  bytes_congr fun k hk _ => hf.outside k (.inr (by omega))

theorem frame_write (h : Heap) (s : Store) (o : Nat) (bs : List UInt8) :
    Frame s o bs.length h (h.write s o bs) :=
  ⟨fun _ hs => write_byte_of_ne hs, fun _ hk => write_byte_of_outside hk, rfl, rfl, rfl⟩

/-- A copy of bytes into an area. -/
theorem put_bytes {Z : Sizes} (h : Heap) (m : Mbuf) (s : Store) (o o' : Nat) {n : Nat}
    (hcap : o + n ≤ m.cap Z) :
    ∃ h', h.put Z m o (h.bytes s o' n) = some h' ∧ h'.bytes m.store o n = h.bytes s o' n ∧
      Frame m.store o n h h' := by
  have hlen : (h.bytes s o' n).length = n := bytes_length h s o' n
  have hwritten := bytes_write h m.store o (h.bytes s o' n)
  have hframe := frame_write h m.store o (h.bytes s o' n)
  rw [hlen] at hwritten hframe
  exact ⟨_, put_eq (.inr (hlen.symm ▸ hcap)), hwritten, hframe⟩

theorem data_congr (hb : h'.byte m.store = h.byte m.store) : h'.data m = h.data m :=
  bytes_congr fun k _ _ => by rw [hb]

theorem data_eq_iff : h'.data m = h.data m ↔
    ∀ k, m.data ≤ k → k < m.data + m.len → h'.byte m.store k = h.byte m.store k := by
  refine ⟨fun heq k hk hk' => ?_, bytes_congr⟩
  obtain ⟨i, rfl⟩ := Nat.exists_eq_add_of_le hk
  exact List.map_inj_left.mp heq i (List.mem_range.mpr (by omega))

theorem chain_congr (hb : ∀ m ∈ c, h'.data m = h.data m) : h'.chain c = h.chain c := by
  induction c with
  | nil => rfl
  | cons m c ih =>
    rw [chain_cons, chain_cons, hb m List.mem_cons_self,
      ih fun m' hm' => hb m' (List.mem_cons_of_mem m hm')]

/-- Equal chains have equal mbufs. -/
theorem data_of_chain (heq : h'.chain c = h.chain c) : ∀ m ∈ c, h'.data m = h.data m := by
  induction c with
  | nil => exact fun _ hm => absurd hm List.not_mem_nil
  | cons m c ih =>
    obtain ⟨hm, hc⟩ := List.append_inj heq (by rw [data_length, data_length])
    exact List.forall_mem_cons.mpr ⟨hm, ih hc⟩

end Bytes

/-! ## What allocation leaves alone -/

/-- What was allocated before holds what it did. -/
structure Extends (h h' : Heap) : Prop where
  next : h.next ≤ h'.next
  byte : ∀ s : Store, s.id < h.next → h'.byte s = h.byte s
  avail : h'.avail = h.avail
  junk : h'.junk = h.junk

theorem Extends.refl (h : Heap) : Extends h h := ⟨le_rfl, fun _ _ => rfl, rfl, rfl⟩

theorem Extends.trans {h h' h'' : Heap} (h₁ : Extends h h') (h₂ : Extends h' h'') : Extends h h'' :=
  ⟨Nat.le_trans h₁.next h₂.next,
    fun s hs => (h₂.byte s (Nat.lt_of_lt_of_le hs h₁.next)).trans (h₁.byte s hs),
    h₂.avail.trans h₁.avail, h₂.junk.trans h₁.junk⟩

theorem extends_tick (h : Heap) : Extends h h.tick :=
  ⟨Nat.le_succ _, fun _ _ => rfl, rfl, rfl⟩

theorem extends_clget (Z : Sizes) (h : Heap) (m : Mbuf) : Extends h (mClget Z h m).2 := by
  unfold mClget
  split
  · exact ⟨Nat.le_succ _, fun _ _ => rfl, rfl, rfl⟩
  · exact extends_tick h

/-- A write into an area that is new. -/
theorem Extends.frame {h₀ h h' : Heap} {s : Store} {o n : Nat} (hext : Extends h₀ h)
    (hs : h₀.next ≤ s.id) (hf : Frame s o n h h') : Extends h₀ h' := by
  refine ⟨hf.next ▸ hext.next, fun s' hs' => ?_, hf.avail.trans hext.avail, hf.junk.trans hext.junk⟩
  have hne : s' ≠ s := fun heq => absurd hs' (by rw [heq]; exact Nat.not_lt.mpr hs)
  rw [hf.other s' hne, hext.byte s' hs']

/-- The mbuf and its area have been allocated. -/
def Mbuf.Old (h : Heap) (m : Mbuf) : Prop :=
  m.addr < h.next ∧ ∀ e, m.ext = some e → e.buf < h.next

theorem Mbuf.Old.store {h : Heap} {m : Mbuf} (hm : m.Old h) : m.store.id < h.next := by
  unfold Mbuf.store
  rcases he : m.ext with _ | e
  · exact hm.1
  · exact hm.2 e he

theorem Extends.data {h h' : Heap} (hext : Extends h h') {m : Mbuf} (hm : m.Old h) :
    h'.data m = h.data m := data_congr (hext.byte _ hm.store)

theorem Extends.chain {h h' : Heap} (hext : Extends h h') {c : List Mbuf}
    (hc : ∀ m ∈ c, m.Old h) : h'.chain c = h.chain c :=
  chain_congr fun m hm => hext.data (hc m hm)

/-- A new mbuf with nothing in it. -/
structure Blank (Z : Sizes) (h₀ h : Heap) (n : Mbuf) : Prop where
  ext : Extends h₀ h
  none : n.ext = none
  start : n.base Z ≤ n.data
  fresh : h₀.next ≤ n.addr
  old : n.addr < h.next

section Blank

variable {Z : Sizes} {h₀ h : Heap} {m0 n : Mbuf}

theorem mGet_blank (Z : Sizes) (hav : h.avail h.next = true) (type : Nat) :
    ∃ n, mGet h type = (some n, h.tick) ∧ Blank Z h h.tick n ∧ n.pkthdr = none ∧ n.data = 0 := by
  refine ⟨_, by rw [mGet, if_pos hav], ?_, rfl, rfl⟩
  exact ⟨extends_tick h, rfl, le_rfl, le_rfl, Nat.lt_succ_self _⟩

theorem mGethdr_blank (Z : Sizes) (hav : h.avail h.next = true) (type : Nat) :
    ∃ n, mGethdr Z h type = (some n, h.tick) ∧ Blank Z h h.tick n ∧ n.len = h.junk h.next := by
  refine ⟨_, by rw [mGethdr, if_pos hav], ⟨extends_tick h, rfl, ?_, le_rfl,
    Nat.lt_succ_self _⟩, rfl⟩
  simp [Mbuf.base]

/-- A new mbuf may get another header, and its data further on. -/
theorem Blank.congr {p : Option Int} {d : Nat} (hb : Blank Z h₀ h n)
    (hp : p.isSome = n.pkthdr.isSome) (hd : n.data ≤ d) :
    Blank Z h₀ h { n with pkthdr := p, data := d } := by
  refine ⟨hb.ext, hb.none, Nat.le_trans ?_ hd, hb.fresh, hb.old⟩
  have hstart := hb.start
  simp only [Mbuf.base, hb.none, hp] at hstart ⊢
  exact hstart

theorem mDupPkthdr_blank (hav : h.avail h.next = true) (hb : Blank Z h₀ h n)
    (hsome : m0.pkthdr.isSome = true) :
    ∃ n', mDupPkthdr Z h n m0 = (some n', h.tick) ∧ Blank Z h₀ h.tick n' ∧
      n'.pkthdr = m0.pkthdr ∧ n'.data = Z.mlen - Z.mhlen ∧ n'.len = n.len := by
  rw [mDupPkthdr, if_pos hav]
  refine ⟨_, rfl, ?_, rfl, if_pos hb.none, rfl⟩
  refine ⟨hb.ext.trans (extends_tick h), hb.none, ?_, hb.fresh, Nat.lt_succ_of_lt hb.old⟩
  simp [Mbuf.base, hb.none, hsome]

/-- An mbuf with an area of its own that is new and has space for `len` bytes. -/
structure Room (Z : Sizes) (h₀ h : Heap) (o : Mbuf) (len : Nat) : Prop where
  ext : Extends h₀ h
  fresh : h₀.next ≤ o.store.id
  base : o.base Z ≤ o.data
  cap : o.data + len ≤ o.cap Z

section Room

variable {c : List Mbuf} {o : Mbuf} {len l : Nat}

/-- With a cluster, when there is one, there is space. -/
theorem blank_room (hb : Blank Z h₀ h n) (hl : n.data + l ≤ Z.mlen) (hlen : len ≤ Z.mclbytes) :
    ∃ o h₁, (if l < len then mClget Z h n else (n, h)) = (o, h₁) ∧ Extends h₀ h₁ ∧
      (¬ (l < len ∧ o.ext = none) → Room Z h₀ h₁ o len) := by
  by_cases hlt : l < len
  · rw [if_pos hlt]
    have hext := hb.ext.trans (extends_clget Z h n)
    unfold mClget at hext ⊢
    split
    · rename_i hav
      rw [if_pos hav] at hext
      refine ⟨_, _, rfl, hext, fun _ => ⟨hext, hb.ext.next, Nat.zero_le _, ?_⟩⟩
      show 0 + len ≤ Z.mclbytes
      omega
    · rename_i hav
      rw [if_neg hav] at hext
      exact ⟨n, h.tick, rfl, hext, fun hno => absurd ⟨hlt, hb.none⟩ hno⟩
  · rw [if_neg hlt]
    refine ⟨n, h, rfl, hb.ext, fun _ => ⟨hb.ext, ?_, hb.start, ?_⟩⟩
    · rw [Mbuf.store, hb.none]
      exact hb.fresh
    · rw [Mbuf.cap, hb.none]
      show n.data + len ≤ Z.mlen
      omega

/-- Old data is elsewhere. -/
theorem Room.store_ne (hr : Room Z h₀ h o len) (hc : ∀ m ∈ c, m.Old h₀) :
    ∀ m ∈ c, m.store ≠ o.store := by
  intro m hm heq
  have hlt := (hc m hm).store
  rw [heq] at hlt
  exact absurd hr.fresh (Nat.not_le.mpr hlt)

end Room

end Blank

/-! ## Chains -/

/-- How many mbufs of a chain refer to an external buffer. -/
def refsIn (buf : Nat) (c : List Mbuf) : Nat :=
  c.countP fun m => decide (m.ext.map Ext.buf = some buf)

/-- `m_pkthdr.len` of the first mbuf. -/
def packetLen (c : List Mbuf) : Option Int := c.head?.bind Mbuf.pkthdr

/-- A chain of allocated mbufs, each with its data inside its storage, and with the length
of the packet in its header. It is no longer than an `int` can say. -/
structure Chain (Z : Sizes) (h : Heap) (c : List Mbuf) : Prop where
  ne : c ≠ []
  old : ∀ m ∈ c, m.Old h
  inside : ∀ m ∈ c, m.Inside Z
  nodup : (c.map Mbuf.addr).Nodup
  refs : ∀ buf, refsIn buf c ≤ h.refs buf
  pkthdr : ∀ l, packetLen c = some l → l = total c
  fits : total c < 2 ^ 31

/-! ## Finding a byte -/

theorem mGetptr_spec {c pre post : List Mbuf} {m : Mbuf} {loc off : Nat}
    (h : mGetptr c loc = some (pre, m, post, off)) :
    c = pre ++ m :: post ∧ loc = total pre + off ∧ (off < m.len ∨ off = m.len ∧ post = []) := by
  induction c generalizing loc pre with
  | nil => exact absurd h (by simp [mGetptr])
  | cons a c ih =>
    rw [mGetptr] at h
    split at h
    · rename_i hlt
      obtain ⟨rfl, rfl, rfl, rfl⟩ : [] = pre ∧ a = m ∧ c = post ∧ loc = off := by simpa using h
      exact ⟨rfl, (Nat.zero_add _).symm, .inl hlt⟩
    · rename_i hge
      split at h
      · rename_i hnil
        split at h
        · obtain ⟨rfl, rfl, rfl, rfl⟩ : [] = pre ∧ a = m ∧ [] = post ∧ a.len = off := by
            simpa using h
          exact ⟨by rw [hnil]; rfl, by rw [total_nil]; omega, .inr ⟨rfl, rfl⟩⟩
        · exact absurd h (by simp)
      · obtain ⟨⟨pre', m', post', off'⟩, hrec, heq⟩ := Option.map_eq_some_iff.mp h
        obtain ⟨rfl, rfl, rfl, rfl⟩ : a :: pre' = pre ∧ m' = m ∧ post' = post ∧ off' = off := by
          simpa using heq
        obtain ⟨hc, hloc, hoff⟩ := ih hrec
        exact ⟨by rw [hc]; rfl, by rw [total_cons]; omega, hoff⟩

theorem mGetptr_isSome {c : List Mbuf} {loc : Nat} (hne : c ≠ []) (hloc : loc ≤ total c) :
    (mGetptr c loc).isSome = true := by
  induction c generalizing loc with
  | nil => exact absurd rfl hne
  | cons a c ih =>
    rw [total_cons] at hloc
    rw [mGetptr]
    split
    · rfl
    · split
      · rename_i hnil
        rw [hnil, total_nil] at hloc
        rw [if_pos (by omega)]
        rfl
      · rename_i hne'
        rw [Option.isSome_map]
        exact ih hne' (by omega)

end Obsd.MbufChain
