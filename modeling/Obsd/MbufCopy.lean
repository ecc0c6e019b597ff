import Obsd.Mbuf

/-!
# Copying an mbuf chain

`m_copym` and `m_copym2` (`uipc_mbuf.c`) are `m_copym0`, which makes an mbuf
at a time: one that refers to the same external buffer, or, for a deep copy
and for data that is in the mbuf itself, one with a copy of the bytes.

A copy from the beginning of a packet has the packet header in its first
mbuf, and then `MHLEN` bytes of space, not `MLEN`. The mbuf the first bytes
come from has no header when the mbuf with the header is empty, and may hold
more. And `M_COPYALL` is a length like others: with more than that to copy,
`len` can get there on its way to 0.
-/

namespace Obsd.MbufChain

/-- `M_COPYALL` -/
def mCopyall : Nat := 1000000000

/-- The packet header of the first mbuf of the copy. -/
def mCopyhdr (Z : Sizes) (h : Heap) (n m0 : Mbuf) (len : Nat) (copyhdr : Bool) :
    Option Mbuf × Heap :=
  if copyhdr then
    match mDupPkthdr Z h n m0 with
    | (none, h) => (none, h)
    | (some n, h) => (some (if len ≠ mCopyall then { n with pkthdr := some len } else n), h)
  else (some n, h)

/-- `n` gets what there is in `m` from `off` on. -/
def mCopyFill (Z : Sizes) (h : Heap) (n m : Mbuf) (off len : Nat) (deep : Bool) :
    Option (Mbuf × Heap) :=
  let n := { n with len := min len (m.len - off) }
  match m.ext with
  | some e =>
    if !deep then some ({ n with data := m.data + off, ext := some e }, mclAddReference h e)
    else
      let (n, h) := mClget Z h n
      let n := { n with len := 0 }
      let n := { n with len := mTrailingspace Z h n }
      let n := { n with len := min n.len len }
      let n := { n with len := min n.len (m.len - off) }
      (h.put Z n n.data (h.bytes m.store (m.data + off) n.len)).map fun h => (n, h)
  | none => (h.put Z n n.data (h.bytes m.store (m.data + off) n.len)).map fun h => (n, h)

/-- The body of the loop up to the counting: a new mbuf, or no space for one. -/
def mCopyOne (Z : Sizes) (h : Heap) (m0 m : Mbuf) (off len : Nat) (deep copyhdr : Bool) :
    Option (Option Mbuf × Heap) :=
  match mGet h m.type with
  | (none, h) => some (none, h)
  | (some n, h) =>
    match mCopyhdr Z h n m0 len copyhdr with
    | (none, h) => some (none, mFree h n)
    | (some n, h) => (mCopyFill Z h n m off len deep).map fun (n, h) => (some n, h)

/-- The loop, with a bound on its turns. -/
def mCopyLoop (Z : Sizes) (m0 : Mbuf) (deep : Bool) :
    Nat → Heap → List Mbuf → List Mbuf → Nat → Nat → Bool → Option (List Mbuf × Heap)
  | 0, _, _, _, _, _, _ => none
  | fuel + 1, h, top, rest, off, len, copyhdr =>
    if len = 0 then some (top, h)
    else
      match rest with
      | [] => if len ≠ mCopyall then none else some (top, h)
      | m :: next =>
        match mCopyOne Z h m0 m off len deep copyhdr with
        | none => none
        | some (none, h) => some ([], mFreem h top)
        | some (some n, h) =>
          let len := if len ≠ mCopyall then len - n.len else len
          let off := off + n.len
          if off > m.len then none
          else if off = m.len then mCopyLoop Z m0 deep fuel h (top ++ [n]) next 0 len false
          else mCopyLoop Z m0 deep fuel h (top ++ [n]) (m :: next) off len false

def mCopym0 (Z : Sizes) (h : Heap) (c : List Mbuf) (off len : Int) (deep : Bool) :
    Option (List Mbuf × Heap) :=
  if off < 0 ∨ len < 0 then none
  else
    match c with
    | [] => none
    | m0 :: _ =>
      match mGetptr c off.toNat with
      | none => none
      | some (_, m, next, off') =>
        mCopyLoop Z m0 deep (total c + c.length + 1) h [] (m :: next) off' len.toNat
          (decide (off = 0) && m0.pkthdr.isSome)

def mCopym (Z : Sizes) (h : Heap) (c : List Mbuf) (off len : Int) : Option (List Mbuf × Heap) :=
  mCopym0 Z h c off len false

def mCopym2 (Z : Sizes) (h : Heap) (c : List Mbuf) (off len : Int) : Option (List Mbuf × Heap) :=
  mCopym0 Z h c off len true

/-! ## One mbuf -/

/-- How much goes into one mbuf. -/
def fillLen (Z : Sizes) (m : Mbuf) (off len : Nat) (deep : Bool) : Nat :=
  if deep && m.ext.isSome then min (min Z.mclbytes len) (m.len - off)
  else min len (m.len - off)

/-- `n` is new and has a copy of the data of `m` from `off` on. -/
structure Copies (Z : Sizes) (h h' : Heap) (m : Mbuf) (off : Nat) (n : Mbuf) : Prop where
  ext : Extends h h'
  old : n.Old h'
  fresh : h.next ≤ n.addr
  inside : n.Inside Z
  data : h'.data n = h.bytes m.store (m.data + off) n.len

section One

variable {Z : Sizes} {h₀ h : Heap} {m0 m n : Mbuf} {off len : Nat} {copyhdr : Bool}

/-- The header that the copy gets. -/
def headerOf (m0 : Mbuf) (len : Nat) (copyhdr : Bool) : Option Int :=
  if copyhdr then if len ≠ mCopyall then some len else m0.pkthdr else none

/-- The space in the mbuf that is next. -/
def roomFor (Z : Sizes) (copyhdr : Bool) : Nat := if copyhdr then Z.mhlen else Z.mlen

theorem mCopyhdr_blank (len : Nat) (hav : h.avail h.next = true) (hb : Blank Z h₀ h n)
    (hn : n.pkthdr = none) (hdata : n.data = 0)
    (hm0 : copyhdr = true → m0.pkthdr.isSome = true) :
    ∃ n' h', mCopyhdr Z h n m0 len copyhdr = (some n', h') ∧ Blank Z h₀ h' n' ∧
      n'.pkthdr = headerOf m0 len copyhdr ∧ n'.data + roomFor Z copyhdr = Z.mlen := by
  cases copyhdr with
  | false => exact ⟨n, h, rfl, hb, hn, by rw [hdata]; exact Nat.zero_add _⟩
  | true =>
    obtain ⟨n', hdup, hb', hn', hdata', -⟩ := mDupPkthdr_blank hav hb (hm0 rfl)
    have hspace : n'.data + Z.mhlen = Z.mlen := by
      rw [hdata']
      exact Nat.sub_add_cancel Z.mhlen_le
    simp only [mCopyhdr, hdup, if_true, headerOf, roomFor]
    refine ⟨_, _, rfl, ?_, ?_, ?_⟩
    · split
      · exact hb'.congr (by rw [hn', hm0 rfl]; rfl) le_rfl
      · exact hb'
    · split
      · rfl
      · exact hn'
    · split <;> exact hspace

/-- A copy of bytes into a new area. -/
theorem copies_put (m n : Mbuf) (off : Nat) (hext : Extends h₀ h) (hm : m.Old h₀)
    (hnew : h₀.next ≤ n.addr) (hstore : h₀.next ≤ n.store.id) (hold : n.Old h)
    (hbase : n.base Z ≤ n.data)
    (hcap : n.data + n.len ≤ n.cap Z) :
    ∃ h', h.put Z n n.data (h.bytes m.store (m.data + off) n.len) = some h' ∧
      Copies Z h₀ h' m off n := by
  obtain ⟨h', hput, hbytes, hframe⟩ := put_bytes h n m.store n.data (m.data + off) hcap
  refine ⟨h', hput, hext.frame hstore hframe, ?_, hnew, ⟨hbase, hcap⟩, ?_⟩
  · rw [Mbuf.Old, hframe.next]
    exact hold
  · rw [Heap.data, hbytes]
    exact bytes_congr fun k _ _ => by rw [hext.byte _ hm.store]

/-- An mbuf gets its piece, unless that is more than there is space for. -/
theorem mCopyFill_spec (off len : Nat) (deep : Bool) (hav : deep = true → h.avail h.next = true)
    (hb : Blank Z h₀ h n) (hm : m.Old h₀) (hin : m.Inside Z) (hoff : off ≤ m.len)
    (hroom : m.ext = none → n.data + min len (m.len - off) ≤ Z.mlen) :
    ∃ n' h', mCopyFill Z h n m off len deep = some (n', h') ∧ Copies Z h₀ h' m off n' ∧
      n'.len = fillLen Z m off len deep ∧ n'.pkthdr = n.pkthdr := by
  have hfresh := hb.fresh
  have hbase := hb.start
  unfold mCopyFill fillLen
  rcases he : m.ext with _ | e
  · rw [Option.isSome_none, Bool.and_false]
    simp only [Bool.false_eq_true, if_false]
    obtain ⟨h', hput, hcop⟩ := copies_put (Z := Z) m
      { n with len := min len (m.len - off) } off hb.ext hm hfresh
      (by simp only [Mbuf.store, hb.none]; exact hfresh)
      ⟨hb.old, fun e he' => absurd (hb.none.symm.trans he') (by simp)⟩
      (by exact hbase)
      (by simp only [Mbuf.cap, hb.none]; exact hroom he)
    exact ⟨_, h', by rw [hput]; rfl, hcop, rfl, rfl⟩
  · rcases deep with _ | _
    · refine ⟨_, _, rfl, ⟨?_, ?_, hfresh, ?_, ?_⟩, rfl, rfl⟩
      · exact ⟨hb.ext.next, hb.ext.byte, hb.ext.avail, hb.ext.junk⟩
      · refine ⟨hb.old, fun e' he' => ?_⟩
        obtain rfl : e = e' := by simpa using he'
        exact Nat.lt_of_lt_of_le (hm.2 e he) hb.ext.next
      · have hcap := hin.2
        rw [Mbuf.cap, he] at hcap
        refine ⟨Nat.zero_le _, ?_⟩
        simp only [Mbuf.cap] at hcap ⊢
        omega
      · have hstore : m.store = .ext e.buf := by rw [Mbuf.store, he]
        rw [Heap.data, hstore]
        exact bytes_congr fun k _ _ => hb.ext.byte (.ext e.buf) (hm.2 e he) ▸ rfl
    · simp only [mClget, hav rfl, if_true, Bool.not_true, Bool.false_eq_true, if_false,
        Bool.true_and,
        Option.isSome_some]
      have htrail : mTrailingspace Z { h.tick with refs := Function.update h.refs h.next 1 }
          { n with
            len := 0, data := 0, ext := some ⟨h.next, Z.mclbytes, true⟩ } = Z.mclbytes := by
        simp [mTrailingspace, mReadonly, Mbuf.cap]
      rw [htrail]
      obtain ⟨h', hput, hcop⟩ := copies_put (Z := Z) m
        { n with
          data := 0, ext := some ⟨h.next, Z.mclbytes, true⟩
          len := min (min Z.mclbytes len) (m.len - off) } off
        (h := { h.tick with refs := Function.update h.refs h.next 1 })
        ⟨Nat.le_trans hb.ext.next (Nat.le_succ _), hb.ext.byte, hb.ext.avail, hb.ext.junk⟩ hm hfresh
        hb.ext.next ⟨Nat.lt_succ_of_lt hb.old, fun e' he' => by
          obtain rfl : (⟨h.next, Z.mclbytes, true⟩ : Ext) = e' := by simpa using he'
          exact Nat.lt_succ_self _⟩ (Nat.zero_le _) (by simp only [Mbuf.cap]; omega)
      exact ⟨_, h', by rw [hput]; rfl, hcop, rfl, rfl⟩

/-- A header mbuf has no space for what an mbuf without a header can hold. -/
theorem mCopyFill_none (deep : Bool) (hb : Blank Z h₀ h n) (he : m.ext = none)
    (hroom : Z.mlen < n.data + min len (m.len - off)) (hdata : n.data ≤ Z.mlen) :
    mCopyFill Z h n m off len deep = none := by
  simp only [mCopyFill, he, Heap.put, Mbuf.cap, hb.none, bytes_length]
  rw [if_neg fun hnil => ?_, if_neg (by omega)]
  · rfl
  · have hlen := congrArg List.length hnil
    rw [bytes_length, List.length_nil] at hlen
    omega

theorem mCopyOne_spec (deep : Bool) (hav : ∀ k, h.avail k = true) (hm : m.Old h) (hin : m.Inside Z)
    (hoff : off ≤ m.len) (hm0 : copyhdr = true → m0.pkthdr.isSome = true)
    (hroom : m.ext = none → min len (m.len - off) ≤ roomFor Z copyhdr) :
    ∃ n h', mCopyOne Z h m0 m off len deep copyhdr = some (some n, h') ∧ Copies Z h h' m off n ∧
      n.len = fillLen Z m off len deep ∧ n.pkthdr = headerOf m0 len copyhdr := by
  obtain ⟨n₁, hget, hb₁, hn₁, hdata₁⟩ := mGet_blank Z (hav h.next) m.type
  obtain ⟨n₂, h₂, hhdr, hb₂, hn₂, hspace⟩ := mCopyhdr_blank len (hav h.tick.next) hb₁ hn₁ hdata₁ hm0
  obtain ⟨n₃, h₃, hfill, hcop, hlen, hn₃⟩ :=
    mCopyFill_spec off len deep (fun _ => by rw [hb₂.ext.avail]; exact hav _) hb₂ hm hin hoff
      fun he => by have := hroom he; omega
  refine ⟨n₃, h₃, ?_, hcop, hlen, hn₃.trans hn₂⟩
  simp only [mCopyOne, hget, hhdr, hfill, Option.map_some]

theorem mCopyOne_none (deep : Bool) (hav : ∀ k, h.avail k = true)
    (hm0 : copyhdr = true → m0.pkthdr.isSome = true) (he : m.ext = none)
    (hroom : roomFor Z copyhdr < min len (m.len - off)) :
    mCopyOne Z h m0 m off len deep copyhdr = none := by
  obtain ⟨n₁, hget, hb₁, hn₁, hdata₁⟩ := mGet_blank Z (hav h.next) m.type
  obtain ⟨n₂, h₂, hhdr, hb₂, hn₂, hspace⟩ := mCopyhdr_blank len (hav h.tick.next) hb₁ hn₁ hdata₁ hm0
  have hfill : mCopyFill Z h₂ n₂ m off len deep = none :=
    mCopyFill_none deep hb₂ he (by omega) (by omega)
  simp only [mCopyOne, hget, hhdr, hfill, Option.map_none]

end One

end Obsd.MbufChain
