import Obsd.MbufCopy

/-!
# What the copy of a chain holds

The loop of `m_copym0` by its turns: each adds an mbuf with the next bytes to
the copy and leaves fewer bytes, or fewer mbufs, to go (`runs_step`). The copy
has the bytes asked for, unless a turn leaves exactly `M_COPYALL` of them.
-/

namespace Obsd.MbufChain

/-- The bytes that a length asks for. -/
def upto (len : Nat) (bs : List UInt8) : List UInt8 := if len = mCopyall then bs else bs.take len

/-- Whether the copy, from `off` in the first mbuf on, has an mbuf that ends after `d`
bytes: one of the chain does, or a cluster of a deep copy. -/
def hits (Z : Sizes) (deep : Bool) : List Mbuf → Nat → Nat → Bool
  | [], _, _ => false
  | m :: next, off, d =>
    if d < m.len - off then deep && m.ext.isSome && decide (d % Z.mclbytes = 0)
    else decide (d = m.len - off) || hits Z deep next 0 (d - (m.len - off))

/-- What the loop copies of the bytes that are left. -/
def copied (Z : Sizes) (deep : Bool) (rest : List Mbuf) (off len : Nat) (bs : List UInt8) :
    List UInt8 :=
  if mCopyall < len ∧ hits Z deep rest off (len - mCopyall) = true then bs else upto len bs

/-- What is left to copy of the chain after a turn, and from where. -/
def restAfter (m : Mbuf) (next : List Mbuf) (off : Nat) : List Mbuf :=
  if off = m.len then next else m :: next

def offAfter (m : Mbuf) (off : Nat) : Nat := if off = m.len then 0 else off

def lenAfter (len k : Nat) : Nat := if len ≠ mCopyall then len - k else len

section Bytes

variable {Z : Sizes} {h : Heap} {m : Mbuf} {next : List Mbuf} {off len d : Nat} {deep : Bool}
  {bs bs' : List UInt8}

theorem mclbytes_pos (Z : Sizes) : 0 < Z.mclbytes :=
  Nat.lt_of_lt_of_le Z.mhlen_pos (Nat.le_trans Z.mhlen_le Z.mlen_le)

theorem mCopyall_pos : 0 < mCopyall := by decide

theorem fillLen_le (Z : Sizes) (m : Mbuf) (off len : Nat) (deep : Bool) :
    fillLen Z m off len deep ≤ len ∧ fillLen Z m off len deep ≤ m.len - off := by
  unfold fillLen
  split <;> omega

/-- A turn copies something, if there is something in the mbuf. -/
theorem fillLen_pos (hlen : 0 < len) (hoff : off < m.len) : 0 < fillLen Z m off len deep := by
  have := mclbytes_pos Z
  unfold fillLen
  split <;> omega

/-- A turn that neither ends the mbuf nor the copy fills a cluster. -/
theorem fillLen_part (deep : Bool) (hm : fillLen Z m off len deep < m.len - off)
    (hlen : fillLen Z m off len deep < len) :
    (deep && m.ext.isSome) = true ∧ fillLen Z m off len deep = Z.mclbytes := by
  unfold fillLen at *
  split at hm
  · rename_i hdeep
    rw [if_pos hdeep] at hlen ⊢
    exact ⟨hdeep, by omega⟩
  · rename_i hdeep
    rw [if_neg hdeep] at hlen
    omega

/-- A turn that is past `d` in the mbuf did not end there. -/
theorem hits_past (hd : 0 < d) (hk : d < fillLen Z m off len deep) :
    hits Z deep (m :: next) off d = false := by
  have hle := (fillLen_le Z m off len deep).2
  rw [hits, if_pos (Nat.lt_of_lt_of_le hk hle)]
  rcases hdeep : deep && m.ext.isSome with _ | _
  · rfl
  · rw [fillLen, if_pos hdeep] at hk
    rw [Nat.mod_eq_of_lt (by omega), Bool.true_and]
    exact decide_eq_false (Nat.ne_of_gt hd)

/-- And one that ends there. -/
theorem hits_here (hlen : d < len) (hk : fillLen Z m off len deep = d) :
    hits Z deep (m :: next) off d = true := by
  have hle := (fillLen_le Z m off len deep).2
  rw [hits]
  split
  · rename_i hlt
    obtain ⟨hdeep, hmcl⟩ :=
      fillLen_part (Z := Z) (m := m) deep (hk ▸ hlt) (hk ▸ hlen)
    rw [hdeep, ← hk, hmcl, Nat.mod_self]
    rfl
  · rename_i hge
    have heq : d = m.len - off := Nat.le_antisymm (hk ▸ hle) (Nat.le_of_not_lt hge)
    rw [decide_eq_true heq, Bool.true_or]

/-- A turn that is not there yet. -/
theorem hits_before (hoff : off ≤ m.len) (hlen : d ≤ len) (hk : fillLen Z m off len deep < d) :
    hits Z deep (m :: next) off d =
      hits Z deep (restAfter m next (off + fillLen Z m off len deep))
        (offAfter m (off + fillLen Z m off len deep)) (d - fillLen Z m off len deep) := by
  have hle := (fillLen_le Z m off len deep).2
  by_cases hend : off + fillLen Z m off len deep = m.len
  · have hrem : m.len - off = fillLen Z m off len deep := by omega
    rw [restAfter, offAfter, if_pos hend, if_pos hend, hits, hrem, if_neg (by omega),
      decide_eq_false (by omega), Bool.false_or]
  · obtain ⟨hdeep, hmcl⟩ := fillLen_part deep (by omega) (Nat.lt_of_lt_of_le hk hlen)
    rw [restAfter, offAfter, if_neg hend, if_neg hend, hits, hits, hdeep, hmcl]
    rw [hmcl] at hk hend hle
    by_cases hlt : d < m.len - off
    · rw [if_pos hlt, if_pos (by omega), Nat.mod_eq_sub_mod (Nat.le_of_lt hk)]
    · rw [if_neg hlt, if_neg (by omega)]
      congr 1
      · exact decide_eq_decide.mpr (by omega)
      · congr 1
        omega

theorem upto_append (hk : bs.length ≤ len)
    (hlen : len ≠ mCopyall → len - bs.length ≠ mCopyall) :
    upto len (bs ++ bs') = bs ++ upto (lenAfter len bs.length) bs' := by
  unfold upto lenAfter
  by_cases hall : len = mCopyall
  · rw [if_pos hall, if_neg (not_not.mpr hall), if_pos hall]
  · rw [if_neg hall, if_pos hall, if_neg (hlen hall), List.take_append, List.take_of_length_le hk]

/-- What a turn copies and what is then to copy. -/
theorem copied_append (hoff : off ≤ m.len) (hbs : bs.length = fillLen Z m off len deep) :
    copied Z deep (m :: next) off len (bs ++ bs') =
      bs ++ copied Z deep (restAfter m next (off + bs.length)) (offAfter m (off + bs.length))
        (lenAfter len bs.length) bs' := by
  have hle := (fillLen_le Z m off len deep).1
  rw [← hbs] at hle
  rcases Nat.lt_or_ge mCopyall len with hlt | hge
  · have hafter : lenAfter len bs.length = len - bs.length := if_pos (Nat.ne_of_gt hlt)
    rcases Nat.lt_trichotomy bs.length (len - mCopyall) with hk | hk | hk
    · have hbefore : hits Z deep (m :: next) off (len - mCopyall) = _ :=
        hits_before hoff (Nat.sub_le len mCopyall) (hbs ▸ hk)
      rw [← hbs, Nat.sub_right_comm] at hbefore
      rw [copied, copied, hbefore, hafter]
      by_cases hhit : hits Z deep (restAfter m next (off + bs.length))
          (offAfter m (off + bs.length)) (len - bs.length - mCopyall) = true
      · rw [if_pos ⟨hlt, hhit⟩, if_pos ⟨by omega, hhit⟩]
      · rw [if_neg fun h => hhit h.2, if_neg fun h => hhit h.2, upto_append hle fun _ => by omega,
          hafter]
    · have hhere : hits Z deep (m :: next) off (len - mCopyall) = true :=
        hits_here (Nat.sub_lt (Nat.lt_trans mCopyall_pos hlt) mCopyall_pos) (hbs ▸ hk)
      have hall : len - bs.length = mCopyall := by omega
      rw [copied, copied, if_pos ⟨hlt, hhere⟩, hafter, hall, if_neg fun h => Nat.lt_irrefl _ h.1,
        upto, if_pos rfl]
    · have hpast : hits Z deep (m :: next) off (len - mCopyall) = false :=
        hits_past (by omega) (hbs ▸ hk)
      have hno : ¬ mCopyall < len - bs.length := by omega
      rw [copied, copied, if_neg fun h => Bool.false_ne_true (hpast.symm.trans h.2), hafter,
        if_neg fun h => hno h.1, upto_append hle fun _ => by omega, hafter]
  · have hafter : lenAfter len bs.length ≤ mCopyall := by
      unfold lenAfter
      split <;> omega
    rw [copied, copied, if_neg fun h => Nat.not_lt.mpr hge h.1,
      if_neg fun h => Nat.not_lt.mpr hafter h.1]
    by_cases hnil : bs.length = 0
    · obtain rfl := List.length_eq_zero_iff.mp hnil
      rw [List.nil_append, List.nil_append, lenAfter, List.length_nil, Nat.sub_zero, ite_self]
    · exact upto_append hle fun _ => by omega

/-- The bytes from `off` on, when a piece of the first mbuf is taken. -/
theorem chain_drop (h : Heap) (m : Mbuf) (next : List Mbuf) {k : Nat} (hk : off + k ≤ m.len) :
    (h.chain (m :: next)).drop off = h.bytes m.store (m.data + off) k ++
      (h.chain (restAfter m next (off + k))).drop (offAfter m (off + k)) := by
  have hdrop : (h.data m).drop off = h.bytes m.store (m.data + off) (m.len - off) :=
    drop_bytes _ _ _ (by omega)
  have hsplit : h.bytes m.store (m.data + off) (m.len - off) =
      h.bytes m.store (m.data + off) k ++
        h.bytes m.store (m.data + (off + k)) (m.len - (off + k)) := by
    rw [← Nat.add_assoc, ← bytes_add]
    congr 1
    omega
  rw [chain_drop_in _ _ _ (by omega), hdrop, hsplit, List.append_assoc]
  unfold restAfter offAfter
  by_cases hend : off + k = m.len
  · rw [if_pos hend, if_pos hend, hend, Nat.sub_self, bytes_zero, List.nil_append, List.drop_zero]
  · rw [if_neg hend, if_neg hend, chain_drop_in _ _ _ hk, Heap.data, drop_bytes _ _ _ hk]

end Bytes

/-! ## The loop -/

/-- New mbufs with some bytes. -/
structure NewChain (Z : Sizes) (h h' : Heap) (c : List Mbuf) (bs : List UInt8) : Prop where
  ext : Extends h h'
  old : ∀ n ∈ c, n.Old h'
  fresh : ∀ n ∈ c, h.next ≤ n.addr
  inside : ∀ n ∈ c, n.Inside Z
  bytes : h'.chain c = bs

/-- From here on the loop adds to the copy what is to be copied, and only the first mbuf
can get a header. -/
def Finishes (Z : Sizes) (m0 : Mbuf) (deep : Bool) (fuel : Nat) (h : Heap) (rest : List Mbuf)
    (off len : Nat) (copyhdr : Bool) : Prop :=
  ∀ top, ∃ c h', mCopyLoop Z m0 deep fuel h top rest off len copyhdr = some (top ++ c, h') ∧
    NewChain Z h h' c (copied Z deep rest off len ((h.chain rest).drop off)) ∧
    (∀ n ∈ c.head?, n.pkthdr = headerOf m0 len copyhdr) ∧ ∀ n ∈ c.tail, n.pkthdr = none

section Loop

variable {Z : Sizes} {h h' : Heap} {m0 m n : Mbuf} {next rest : List Mbuf} {off len fuel : Nat}
  {deep copyhdr : Bool}

theorem NewChain.nil (Z : Sizes) (h : Heap) : NewChain Z h h [] [] :=
  ⟨Extends.refl h, by simp, by simp, by simp, rfl⟩

theorem NewChain.cons {h'' : Heap} {c : List Mbuf} {bs : List UInt8} (hn : Copies Z h h' m off n)
    (hc : NewChain Z h' h'' c bs) :
    NewChain Z h h'' (n :: c) (h.bytes m.store (m.data + off) n.len ++ bs) where
  ext := hn.ext.trans hc.ext
  old := by
    refine List.forall_mem_cons.mpr ⟨?_, hc.old⟩
    exact ⟨Nat.lt_of_lt_of_le hn.old.1 hc.ext.next,
      fun e he => Nat.lt_of_lt_of_le (hn.old.2 e he) hc.ext.next⟩
  fresh := List.forall_mem_cons.mpr
    ⟨hn.fresh, fun n' hn' => Nat.le_trans hn.ext.next (hc.fresh n' hn')⟩
  inside := List.forall_mem_cons.mpr ⟨hn.inside, hc.inside⟩
  bytes := by rw [chain_cons, hc.ext.data hn.old, hn.data, hc.bytes]

/-- With nothing to copy the loop ends. -/
theorem finishes_zero : Finishes Z m0 deep (fuel + 1) h rest off 0 copyhdr := by
  intro top
  refine ⟨[], h, ?_, ?_, by simp, by simp⟩
  · rw [List.append_nil]
    rcases rest with _ | ⟨m, next⟩ <;> rw [mCopyLoop, if_pos rfl]
  · exact NewChain.nil Z h

/-- `M_COPYALL` ends with the chain. -/
theorem finishes_nil : Finishes Z m0 deep (fuel + 1) h [] 0 mCopyall copyhdr := by
  intro top
  refine ⟨[], h, ?_, ?_, by simp, by simp⟩
  · rw [mCopyLoop, if_neg (Nat.ne_of_gt mCopyall_pos)]
    simp only [ne_eq, not_true_eq_false, if_false, List.append_nil]
  · have hall : copied Z deep [] 0 mCopyall ((h.chain []).drop 0) = [] := by
      rfl
    exact NewChain.nil Z h

/-- A turn that makes an mbuf, and what follows it. -/
theorem finishes_step (hlen : 0 < len) (hoff : off ≤ m.len) (hm : ∀ a ∈ m :: next, a.Old h)
    (hone : mCopyOne Z h m0 m off len deep copyhdr = some (some n, h'))
    (hn : Copies Z h h' m off n) (hnlen : n.len = fillLen Z m off len deep)
    (hhdr : n.pkthdr = headerOf m0 len copyhdr)
    (hrest : Finishes Z m0 deep fuel h' (restAfter m next (off + n.len)) (offAfter m (off + n.len))
      (lenAfter len n.len) false) :
    Finishes Z m0 deep (fuel + 1) h (m :: next) off len copyhdr := by
  intro top
  have hle := (fillLen_le Z m off len deep).2
  obtain ⟨c, h'', hloop, hnew, hhead, htail⟩ := hrest (top ++ [n])
  refine ⟨n :: c, h'', ?_, ?_, ?_, ?_⟩
  · rw [mCopyLoop, if_neg (Nat.ne_of_gt hlen)]
    simp only [hone]
    rw [if_neg (by omega)]
    rw [List.append_assoc, List.singleton_append] at hloop
    unfold restAfter offAfter lenAfter at hloop
    split
    · rename_i hend
      rw [if_pos hend, if_pos hend] at hloop
      exact hloop
    · rename_i hend
      rw [if_neg hend, if_neg hend] at hloop
      exact hloop
  · have hbs : (h.bytes m.store (m.data + off) n.len).length = fillLen Z m off len deep := by
      rw [bytes_length, hnlen]
    rw [chain_drop h m next (k := n.len) (by omega), copied_append hoff hbs, bytes_length]
    have hold : ∀ a ∈ restAfter m next (off + n.len), a.Old h := by
      unfold restAfter
      split
      · exact fun a ha => hm a (List.mem_cons_of_mem m ha)
      · exact hm
    rw [← hn.ext.chain hold]
    exact NewChain.cons hn hnew
  · exact fun n' hn' => by
      obtain rfl : n = n' := by simpa using hn'
      exact hhdr
  · intro n' hn'
    rcases c with _ | ⟨a, c⟩
    · exact absurd hn' (by simp)
    · rcases List.mem_cons.mp hn' with rfl | hn'
      · exact hhead _ (by simp)
      · exact htail n' hn'

/-- How far the loop is from its end. -/
def togo (rest : List Mbuf) (off : Nat) : Nat := total rest - off + rest.length

/-- Where the loop can be: in the first mbuf of the rest, with a length it can copy. -/
structure Here (Z : Sizes) (h : Heap) (rest : List Mbuf) (off len : Nat) : Prop where
  avail : ∀ k, h.avail k = true
  old : ∀ m ∈ rest, m.Old h
  inside : ∀ m ∈ rest, m.Inside Z
  start : ∀ m ∈ rest.head?, off ≤ m.len
  ended : rest = [] → off = 0
  len : len = mCopyall ∨ off + len ≤ total rest

theorem Here.turn (hh : Here Z h (m :: next) off len) (hn : Copies Z h h' m off n)
    (hnlen : n.len = fillLen Z m off len deep) (hlen : 0 < len) :
    Here Z h' (restAfter m next (off + n.len)) (offAfter m (off + n.len)) (lenAfter len n.len) ∧
      togo (restAfter m next (off + n.len)) (offAfter m (off + n.len)) < togo (m :: next) off := by
  have hoff := hh.start m rfl
  obtain ⟨hle, hle'⟩ := fillLen_le Z m off len deep
  have hlen' := hh.len
  rw [total_cons] at hlen'
  have hold : ∀ a ∈ m :: next, a.Old h' := fun a ha =>
    ⟨Nat.lt_of_lt_of_le (hh.old a ha).1 hn.ext.next,
      fun e he => Nat.lt_of_lt_of_le ((hh.old a ha).2 e he) hn.ext.next⟩
  have hlast : lenAfter len n.len = mCopyall ∨
      off + n.len + lenAfter len n.len ≤ m.len + total next := by
    unfold lenAfter
    rcases hlen' with hall | hlen'
    · exact .inl (by rw [if_neg (not_not.mpr hall)]; exact hall)
    · split
      · exact .inr (by omega)
      · rename_i hall
        exact .inl (not_not.mp hall)
  have havail : ∀ k, h'.avail k = true := fun k => by rw [hn.ext.avail]; exact hh.avail k
  unfold restAfter offAfter togo
  by_cases hend : off + n.len = m.len
  · rw [if_pos hend, if_pos hend]
    refine ⟨⟨havail, fun a ha => hold a (List.mem_cons_of_mem m ha),
      fun a ha => hh.inside a (List.mem_cons_of_mem m ha), fun _ _ => Nat.zero_le _,
      fun _ => rfl, ?_⟩, ?_⟩
    · rcases hlast with hall | hlast
      · exact .inl hall
      · exact .inr (by omega)
    · rw [total_cons, List.length_cons]
      omega
  · rw [if_neg hend, if_neg hend]
    have hpos : 0 < n.len := hnlen ▸ fillLen_pos hlen (by
      refine Nat.lt_of_le_of_ne hoff fun heq => hend ?_
      omega)
    refine ⟨⟨havail, hold, hh.inside, ?_, fun hnil => absurd hnil (by simp), ?_⟩, ?_⟩
    · intro a ha
      obtain rfl : m = a := by simpa using ha
      omega
    · exact hlast
    · rw [total_cons, List.length_cons]
      omega

/-- A turn, when the piece has space in the new mbuf. -/
theorem Here.finishes (hh : Here Z h (m :: next) off len) (hlen : 0 < len)
    (hm0 : copyhdr = true → m0.pkthdr.isSome = true)
    (hroom : m.ext = none → min len (m.len - off) ≤ roomFor Z copyhdr)
    (hrest : ∀ h' rest' off' len', Here Z h' rest' off' len' →
      togo rest' off' < togo (m :: next) off → Finishes Z m0 deep fuel h' rest' off' len' false) :
    Finishes Z m0 deep (fuel + 1) h (m :: next) off len copyhdr := by
  obtain ⟨n, h', hone, hn, hnlen, hhdr⟩ := mCopyOne_spec deep hh.avail
    (hh.old m List.mem_cons_self) (hh.inside m List.mem_cons_self) (hh.start m rfl) hm0 hroom
  obtain ⟨hhere, hless⟩ := hh.turn hn hnlen hlen
  exact finishes_step hlen (hh.start m rfl) hh.old hone hn hnlen hhdr (hrest _ _ _ _ hhere hless)

/-- Data that is in an mbuf itself has space in an mbuf without a header. -/
theorem inside_room (hin : m.Inside Z) (he : m.ext = none) :
    min len (m.len - off) ≤ roomFor Z false := by
  have hcap := hin.2
  rw [Mbuf.cap, he] at hcap
  have hcap' : m.data + m.len ≤ Z.mlen := hcap
  rw [roomFor, if_neg Bool.false_ne_true]
  omega

/-- After the first mbuf of the copy the loop comes to its end. -/
theorem mCopyLoop_finishes (hh : Here Z h rest off len) (hfuel : togo rest off < fuel) :
    Finishes Z m0 deep fuel h rest off len false := by
  induction fuel generalizing h rest off len with
  | zero => exact absurd hfuel (Nat.not_lt_zero _)
  | succ fuel ih =>
    rcases Nat.eq_zero_or_pos len with rfl | hlen
    · exact finishes_zero
    · rcases rest with _ | ⟨m, next⟩
      · obtain rfl := hh.ended rfl
        rcases hh.len with rfl | hlen'
        · exact finishes_nil
        · exact absurd hlen' (by rw [total_nil]; omega)
      · exact hh.finishes hlen (fun hf => absurd hf Bool.false_ne_true)
          (inside_room (hh.inside m List.mem_cons_self))
          fun _ _ _ _ hhere hless => ih hhere (Nat.lt_of_lt_of_le hless (Nat.le_of_lt_succ hfuel))

end Loop

/-! ## The whole copy -/

/-- What a copy is to be: the bytes, in new mbufs with room for them, and the packet header
of a packet copied from its beginning, with the length of the copy. What there was before
is as it was. -/
structure Right (Z : Sizes) (h : Heap) (c : List Mbuf) (off len : Nat) (c' : List Mbuf)
    (h' : Heap) : Prop where
  bytes : h'.chain c' = upto len ((h.chain c).drop off)
  inside : ∀ n ∈ c', n.Inside Z
  fresh : ∀ n ∈ c', h.next ≤ n.addr
  copyhdr : off = 0 → ∀ m0 ∈ c.head?, m0.pkthdr.isSome = true →
    ∀ n ∈ c'.head?, n.pkthdr.isSome = true
  pkthdr : ∀ n ∈ c', ∀ l, n.pkthdr = some l → l = total c'
  source : ∀ s : Store, s.id < h.next → h'.byte s = h.byte s

/-- The first mbuf copied from fits into a header mbuf, if the copy begins with one; and the
copy has no mbuf that ends `M_COPYALL` bytes before the end, or the chain ends there too. -/
def Fits (Z : Sizes) (c : List Mbuf) (off len : Nat) (deep : Bool) : Prop :=
  ∀ m0 ∈ c.head?, ∀ pre m next off', mGetptr c off = some (pre, m, next, off') →
    (off = 0 → m0.pkthdr.isSome = true → m.ext = none → min len (m.len - off') ≤ Z.mhlen) ∧
      (mCopyall < len → hits Z deep (m :: next) off' (len - mCopyall) = true → total c ≤ off + len)

section Whole

variable {Z : Sizes} {h : Heap} {c pre next : List Mbuf} {m0 m : Mbuf} {off off' len : Nat}
  {deep : Bool}

theorem mCopym0_eq (h0 : c.head? = some m0) (hptr : mGetptr c off = some (pre, m, next, off')) :
    mCopym0 Z h c off len deep = mCopyLoop Z m0 deep (total c + c.length + 1) h [] (m :: next) off'
      len (decide (off = 0) && m0.pkthdr.isSome) := by
  rcases c with _ | ⟨a, c⟩
  · exact absurd h0 (by simp)
  · obtain rfl : a = m0 := by simpa using h0
    have hneg : ¬ ((off : Int) < 0 ∨ (len : Int) < 0) := by omega
    have hzero : decide ((off : Int) = 0) = decide (off = 0) := decide_eq_decide.mpr (by omega)
    simp only [mCopym0, if_neg hneg, Int.toNat_natCast, hptr, hzero]

/-- The copy, with the right number of bytes or not. -/
theorem mCopym0_copies (deep : Bool) (hc : Chain Z h c) (hav : ∀ k, h.avail k = true)
    (hlen : off + len ≤ total c ∨ len = mCopyall) (h0 : c.head? = some m0)
    (hptr : mGetptr c off = some (pre, m, next, off'))
    (hfit : off = 0 → m0.pkthdr.isSome = true → m.ext = none →
      min len (m.len - off') ≤ Z.mhlen) :
    ∃ c' h', mCopym0 Z h c off len deep = some (c', h') ∧
      NewChain Z h h' c' (copied Z deep (m :: next) off' len ((h.chain c).drop off)) ∧
      (∀ n ∈ c'.head?, n.pkthdr = headerOf m0 len (decide (off = 0) && m0.pkthdr.isSome)) ∧
      ∀ n ∈ c'.tail, n.pkthdr = none := by
  obtain ⟨rfl, hoff, hoff'⟩ := mGetptr_spec hptr
  have hdrop : (h.chain (pre ++ m :: next)).drop off = (h.chain (m :: next)).drop off' := by
    rw [hoff, chain_drop_append]
  have hmem : ∀ a ∈ m :: next, a ∈ pre ++ m :: next := fun a ha => List.mem_append_right pre ha
  have hhere : Here Z h (m :: next) off' len := by
    refine ⟨hav, fun a ha => hc.old a (hmem a ha), fun a ha => hc.inside a (hmem a ha), ?_, ?_, ?_⟩
    · intro a ha
      obtain rfl : m = a := by simpa using ha
      rcases hoff' with hlt | ⟨heq, -⟩
      · exact Nat.le_of_lt hlt
      · exact Nat.le_of_eq heq
    · exact fun hnil => absurd hnil (by simp)
    · rcases hlen with hlen | hall
      · rw [total_append] at hlen
        exact .inr (by omega)
      · exact .inl hall
  have hfuel : togo (m :: next) off' ≤ total (pre ++ m :: next) + (pre ++ m :: next).length := by
    rw [togo, total_append, List.length_append]
    omega
  have hfin : Finishes Z m0 deep (total (pre ++ m :: next) + (pre ++ m :: next).length + 1) h
      (m :: next) off' len (decide (off = 0) && m0.pkthdr.isSome) := by
    rcases Nat.eq_zero_or_pos len with rfl | hpos
    · exact finishes_zero
    · refine hhere.finishes hpos (fun hf => (Bool.and_eq_true_iff.mp hf).2) ?_
        fun _ _ _ _ hh hless => mCopyLoop_finishes hh (by omega)
      rcases hhdr : decide (off = 0) && m0.pkthdr.isSome with _ | _
      · exact inside_room (hc.inside m (hmem m List.mem_cons_self))
      · obtain ⟨hz, hsome⟩ := Bool.and_eq_true_iff.mp hhdr
        exact hfit (of_decide_eq_true hz) hsome
  obtain ⟨c', h', hloop, hnew, hhead, htail⟩ := hfin []
  rw [hdrop]
  exact ⟨c', h', (mCopym0_eq h0 hptr).trans hloop, hnew, hhead, htail⟩

/-- Without space for it the first piece is copied past the end of the header mbuf. -/
theorem mCopym0_overflows (deep : Bool) (hav : ∀ k, h.avail k = true) (h0 : c.head? = some m0)
    (hptr : mGetptr c off = some (pre, m, next, off')) (hoff : off = 0)
    (hsome : m0.pkthdr.isSome = true) (he : m.ext = none)
    (hroom : Z.mhlen < min len (m.len - off')) : mCopym0 Z h c off len deep = none := by
  have hhdr : (decide (off = 0) && m0.pkthdr.isSome) = true := by
    rw [decide_eq_true hoff, hsome]
    rfl
  rw [mCopym0_eq h0 hptr, hhdr, mCopyLoop, if_neg (by omega),
    mCopyOne_none deep hav (fun _ => hsome) he hroom]

theorem upto_length {bs : List UInt8} (hlen : len ≤ bs.length ∨ len = mCopyall) :
    (upto len bs).length = if len = mCopyall then bs.length else len := by
  unfold upto
  split
  · rfl
  · rename_i hall
    rw [List.length_take, Nat.min_eq_left (hlen.resolve_right hall)]

/-- The copy has the bytes asked for exactly if `len` does not get to `M_COPYALL` before
the end of the chain. -/
theorem copied_eq_iff {rest : List Mbuf} {bs : List UInt8}
    (hlen : len ≤ bs.length ∨ len = mCopyall) :
    copied Z deep rest off' len bs = upto len bs ↔
      (mCopyall < len → hits Z deep rest off' (len - mCopyall) = true → bs.length ≤ len) := by
  unfold copied
  by_cases hhit : mCopyall < len ∧ hits Z deep rest off' (len - mCopyall) = true
  · rw [if_pos hhit]
    have hall : len ≠ mCopyall := Nat.ne_of_gt hhit.1
    constructor
    · intro heq _ _
      have hl := congrArg List.length heq
      rw [upto_length hlen, if_neg hall] at hl
      exact Nat.le_of_eq hl
    · intro hle
      rw [upto, if_neg hall, List.take_of_length_le (hle hhit.1 hhit.2)]
  · rw [if_neg hhit]
    exact ⟨fun _ hlt hh => absurd ⟨hlt, hh⟩ hhit, fun _ => rfl⟩

theorem headerOf_total {c' : List Mbuf} {l : Int} {copyhdr : Bool} (hc : Chain Z h c)
    (h0 : c.head? = some m0) (hoff : copyhdr = true → off = 0)
    (htotal : total c' = if len = mCopyall then total c - off else len)
    (hl : headerOf m0 len copyhdr = some l) : l = total c' := by
  unfold headerOf at hl
  rcases copyhdr with _ | _
  · exact absurd hl (by simp)
  · rw [if_pos rfl] at hl
    rw [htotal]
    by_cases hall : len = mCopyall
    · rw [if_neg (not_not.mpr hall)] at hl
      rw [if_pos hall, hoff rfl]
      exact hc.pkthdr l (by rw [packetLen, h0]; exact hl)
    · rw [if_pos hall, Option.some.injEq] at hl
      rw [if_neg hall, hl]

/-- A copy is what it is to be, if there is space for its first piece and it has the bytes
asked for. -/
theorem right_of_fits (hc : Chain Z h c) (hav : ∀ k, h.avail k = true)
    (hlen : off + len ≤ total c ∨ len = mCopyall ∧ off ≤ total c) (hfits : Fits Z c off len deep) :
    ∃ c' h', mCopym0 Z h c off len deep = some (c', h') ∧ Right Z h c off len c' h' := by
  obtain ⟨m0, c₀, hcons⟩ := List.exists_cons_of_ne_nil hc.ne
  have h0 : c.head? = some m0 := by rw [hcons, List.head?_cons]
  obtain ⟨⟨pre, m, next, off'⟩, hptr⟩ := Option.isSome_iff_exists.mp
    (mGetptr_isSome hc.ne (by omega : off ≤ total c))
  obtain ⟨hroom, hhits⟩ := hfits m0 h0 pre m next off' hptr
  obtain ⟨c', h', heq, hnew, hhead, htail⟩ :=
    mCopym0_copies deep hc hav (hlen.imp_right And.left) h0 hptr hroom
  have hbs : ((h.chain c).drop off).length = total c - off := by rw [List.length_drop, chain_length]
  have hbytes : copied Z deep (m :: next) off' len ((h.chain c).drop off) =
      upto len ((h.chain c).drop off) :=
    (copied_eq_iff (by omega)).mpr fun hlt hh => by
      have := hhits hlt hh
      omega
  have htotal : total c' = if len = mCopyall then total c - off else len := by
    rw [← chain_length h' c', hnew.bytes, hbytes, upto_length (by omega), hbs]
  refine ⟨c', h', heq, ⟨hnew.bytes.trans hbytes, hnew.inside, hnew.fresh, ?_, ?_, hnew.ext.byte⟩⟩
  · intro hz a ha hsome n hn
    obtain rfl : m0 = a := Option.some.inj (h0.symm.trans ha)
    rw [hhead n hn, headerOf, decide_eq_true hz, hsome]
    simp only [Bool.and_self, if_true]
    split
    · rfl
    · exact hsome
  · intro n hn l hl
    rcases c' with _ | ⟨a, c'⟩
    · exact absurd hn (by simp)
    · rcases List.mem_cons.mp hn with rfl | hn
      · rw [hhead n rfl] at hl
        exact headerOf_total hc h0 (fun hf => of_decide_eq_true (Bool.and_eq_true_iff.mp hf).1)
          htotal hl
      · exact absurd ((htail n hn).symm.trans hl) (by simp)

theorem fits_of_right (hc : Chain Z h c) (hav : ∀ k, h.avail k = true)
    (hlen : off + len ≤ total c ∨ len = mCopyall ∧ off ≤ total c)
    (hright : ∃ c' h', mCopym0 Z h c off len deep = some (c', h') ∧ Right Z h c off len c' h') :
    Fits Z c off len deep := by
  intro m0 h0 pre m next off' hptr
  obtain ⟨c', h', heq, hr⟩ := hright
  have hroom : off = 0 → m0.pkthdr.isSome = true → m.ext = none →
      min len (m.len - off') ≤ Z.mhlen := by
    intro hz hsome he
    by_contra hno
    have hnone := mCopym0_overflows deep hav h0 hptr hz hsome he (Nat.lt_of_not_le hno)
    exact absurd (heq.symm.trans hnone) (by simp)
  refine ⟨hroom, fun hlt hh => ?_⟩
  obtain ⟨c'', h'', heq', hnew, -, -⟩ :=
    mCopym0_copies deep hc hav (hlen.imp_right And.left) h0 hptr hroom
  obtain ⟨rfl, rfl⟩ : c' = c'' ∧ h' = h'' := by simpa using heq.symm.trans heq'
  have hbs : ((h.chain c).drop off).length = total c - off := by rw [List.length_drop, chain_length]
  have hle := (copied_eq_iff (by omega)).mp (hnew.bytes.symm.trans hr.bytes) hlt hh
  omega

/-- `m_copym` and `m_copym2` make the copy they are asked for exactly if the first piece
has space in the first mbuf, and if the copy has no mbuf that ends `M_COPYALL` bytes before
the end of what is to be copied. -/
theorem m_copym_right_iff (Z : Sizes) (h : Heap) (c : List Mbuf) (off len : Nat)
    (hc : Chain Z h c) (hav : ∀ k, h.avail k = true)
    (hlen : off + len ≤ total c ∨ len = mCopyall ∧ off ≤ total c) :
    ((∃ c' h', mCopym Z h c off len = some (c', h') ∧ Right Z h c off len c' h') ↔
      Fits Z c off len false) ∧
    ((∃ c' h', mCopym2 Z h c off len = some (c', h') ∧ Right Z h c off len c' h') ↔
      Fits Z c off len true) :=
  ⟨⟨fits_of_right hc hav hlen, right_of_fits hc hav hlen⟩,
    ⟨fits_of_right hc hav hlen, right_of_fits hc hav hlen⟩⟩

end Whole

/-- A packet with its 200 bytes in the mbuf after the header. -/
def emptyHeader : List Mbuf :=
  [⟨0, 64, 0, 1, none, some 200⟩, ⟨1, 0, 200, 1, none, none⟩]

theorem emptyHeader_chain : Chain Sizes.amd64 (Heap.plain 2) emptyHeader where
  ne := by simp [emptyHeader]
  old := by simp [emptyHeader, Mbuf.Old, Heap.plain]
  inside := by simp [emptyHeader, Mbuf.Inside, Mbuf.base, Mbuf.cap, Sizes.amd64]
  nodup := by simp [emptyHeader]
  refs := by simp [emptyHeader, refsIn]
  pkthdr := by simp [emptyHeader, packetLen]
  fits := by simp [emptyHeader]

theorem copym_tail : ∃ c' h', mCopym Sizes.amd64 (Heap.plain 2) emptyHeader 1 2 = some (c', h') ∧
    Right Sizes.amd64 (Heap.plain 2) emptyHeader 1 2 c' h' :=
  (m_copym_right_iff Sizes.amd64 (Heap.plain 2) emptyHeader 1 2 emptyHeader_chain (fun _ => rfl)
    (.inl (by simp [emptyHeader]))).1.mpr
    fun _ _ _ _ _ _ _ => ⟨fun h => absurd h (by simp), fun h => absurd h (by decide)⟩

/-- The copy of the whole packet does not fit into the mbuf with its header. -/
theorem copym_overflow : Chain Sizes.amd64 (Heap.plain 2) emptyHeader ∧
    0 + 200 ≤ total emptyHeader ∧ (∀ k, (Heap.plain 2).avail k = true) ∧
    ¬ ∃ c' h', mCopym Sizes.amd64 (Heap.plain 2) emptyHeader 0 200 = some (c', h') ∧
      Right Sizes.amd64 (Heap.plain 2) emptyHeader 0 200 c' h' := by
  refine ⟨emptyHeader_chain, by simp [emptyHeader], fun _ => rfl, ?_⟩
  rintro ⟨c', h', heq, -⟩
  have hnone : mCopym0 Sizes.amd64 (Heap.plain 2) emptyHeader (0 : Nat) (200 : Nat) false = none :=
    mCopym0_overflows false (fun _ => rfl) rfl rfl rfl rfl rfl (by simp [Sizes.amd64])
  exact absurd (heq.symm.trans hnone) (by simp)

end Obsd.MbufChain
