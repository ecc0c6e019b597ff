import Obsd.MbufGather

/-!
# Pulling up the beginning of a chain

`m_pullup` (`uipc_mbuf.c`) makes the first `len` bytes of a chain contiguous.
It gathers them in the first mbuf, when that has no external storage and room
at its end, or when it has external storage and `len` is between `MHLEN` and
`MCLBYTES`; else in a new mbuf.

The second case is about the size of a cluster, not about where the data is in
it, how large the buffer is, or who else refers to it. So the bytes have to
have room, and what is written has to be there already wherever it is seen.
-/

namespace Obsd.MbufChain

/-- An `int` converted to `size_t`, which `MHLEN` is. -/
def sizeT (x : Int) : Nat := (x % 2 ^ 64).toNat

/-- `M_MOVE_PKTHDR` -/
def mMovePkthdr (Z : Sizes) (m n : Mbuf) : Mbuf × Mbuf :=
  ({ m with pkthdr := n.pkthdr, data := if m.ext = none then Z.mlen - Z.mhlen else m.data },
    { n with pkthdr := none })

/-- From the loop on: the chain, or null when it is too short. -/
def pullupInto (Z : Sizes) (h : Heap) (m : Mbuf) (n : List Mbuf) (len : Int) :
    Option (Option (List Mbuf) × Heap) :=
  match gather Z h m n len with
  | none => none
  | some (m, n, len, h) =>
    if 0 < len then some (none, mFreem (mFree h m) n) else some (some (m :: n), h)

/-- In the first mbuf. -/
def pullupHere (Z : Sizes) (h : Heap) (m : Mbuf) (n : List Mbuf) (len : Int) :
    Option (Option (List Mbuf) × Heap) :=
  if u32 len ≤ m.len then some (some (m :: n), h) else pullupInto Z h m n (i32 (len - m.len))

/-- In a new mbuf. -/
def pullupNew (Z : Sizes) (h : Heap) (n : Mbuf) (next : List Mbuf) (len : Int) :
    Option (Option (List Mbuf) × Heap) :=
  if Z.mclbytes < len then some (none, mFreem h (n :: next))
  else
    match mGet h n.type with
    | (none, h) => some (none, mFreem h (n :: next))
    | (some m, h) =>
      let (m, h) := if Z.mhlen < sizeT len then mClget Z h m else (m, h)
      if Z.mhlen < sizeT len ∧ m.ext = none then some (none, mFreem (mFree h m) (n :: next))
      else
        let m := { m with len := 0 }
        let (m, n) := if n.pkthdr.isSome then mMovePkthdr Z m n else (m, n)
        pullupInto Z h m (n :: next) len

def mPullup (Z : Sizes) (h : Heap) (c : List Mbuf) (len : Int) :
    Option (Option (List Mbuf) × Heap) :=
  match c with
  | [] => none
  | n :: next =>
    if n.ext = none ∧ n.data + len < Z.mlen ∧ next ≠ [] then pullupHere Z h n next len
    else if n.ext ≠ none ∧ Z.mhlen < sizeT len ∧ n.data + len < n.data + Z.mclbytes ∧ next ≠ [] then
      pullupHere Z h n next len
    else pullupNew Z h n next len

/-! ## The loop and what is before it -/

section Into

variable {Z : Sizes} {h h' : Heap} {m : Mbuf} {c others : List Mbuf} {len : Int}

@[simp] theorem mFreem_byte (h : Heap) (c : List Mbuf) : (mFreem h c).byte = h.byte := by
  unfold mFreem
  induction c generalizing h with
  | nil => rfl
  | cons m c ih => rw [List.foldl_cons, ih, mFree_byte]

theorem mFreem_data (h : Heap) (c : List Mbuf) (m : Mbuf) : (mFreem h c).data m = h.data m :=
  data_congr (by rw [mFreem_byte])

/-- Room in an mbuf for what the loop gathers. -/
def Roomy (Z : Sizes) (m : Mbuf) (c : List Mbuf) (len : Int) : Prop :=
  gathered c len = 0 ∨ m.data + m.len + gathered c len ≤ m.cap Z

theorem data_gathered (h : Heap) (m : Mbuf) (c : List Mbuf) (len : Int) :
    (gatherHeap m.store h (m.data + m.len) c len).data
        { m with len := m.len + gathered c len } =
      h.data m ++ (gatherHeap m.store h (m.data + m.len) c len).bytes m.store (m.data + m.len)
        (gathered c len) := by
  have hframe := gatherHeap_frame m.store h (m.data + m.len) c len
  show Heap.bytes _ m.store m.data (m.len + gathered c len) = _
  rw [bytes_add, hframe.before le_rfl]
  rfl

/-- What the loop makes of the chain and of others, when nothing is harmed. -/
theorem pullupInto_right (hroom : Roomy Z m c len) (hm : m.base Z ≤ m.data)
    (hcap : m.data + m.len ≤ m.cap Z) (hc : ∀ a ∈ c, a.Inside Z)
    (hharm : Harmless h m.store others (m.data + m.len) c len) :
    ∃ r h', pullupInto Z h m c len = some (r, h') ∧ (∀ a ∈ others, h'.data a = h.data a) ∧
      ∀ c' ∈ r, h'.chain c' = h.data m ++ h.chain c ∧ (∀ a ∈ c', a.Inside Z) ∧
        lenLeft c len ≤ 0 ∧ ∃ next, c' = { m with len := m.len + gathered c len } :: next := by
  obtain ⟨hothers, hbytes⟩ := gatherHeap_right hharm
  simp only [pullupInto, gather_eq hroom]
  by_cases hleft : 0 < lenLeft c len
  · rw [if_pos hleft]
    refine ⟨_, _, rfl, fun a ha => ?_, fun _ hr => absurd hr (by simp)⟩
    rw [mFreem_data, mFree_data, hothers a ha]
  · rw [if_neg hleft]
    refine ⟨_, _, rfl, hothers, fun c' hc' => ?_⟩
    obtain rfl : _ = c' := Option.some.inj hc'
    refine ⟨?_, List.forall_mem_cons.mpr ⟨⟨hm, ?_⟩, leftOver_inside hc len⟩,
      Int.not_lt.mp hleft, _, rfl⟩
    · rw [chain_cons, data_gathered, List.append_assoc, hbytes]
    · rcases hroom with hzero | hroom
      · rw [hzero]
        exact hcap
      · rw [← Nat.add_assoc]
        exact hroom

theorem roomy_of_result (hres : pullupInto Z h m c len ≠ none) : Roomy Z m c len := by
  by_contra hroom
  exact hres (by rw [pullupInto, gather_none hroom])

/-- And that nothing was harmed, when it returns what it should. -/
theorem harmless_of_result {r : Option (List Mbuf)} (hleft : lenLeft c len ≤ 0)
    (hres : pullupInto Z h m c len = some (r, h')) (hothers : ∀ a ∈ others, h'.data a = h.data a)
    (hbytes : ∀ c' ∈ r, h'.chain c' = h.data m ++ h.chain c) :
    Harmless h m.store others (m.data + m.len) c len := by
  have hroom : Roomy Z m c len := roomy_of_result (h := h) (by rw [hres]; simp)
  simp only [pullupInto, gather_eq hroom, if_neg (Int.not_lt.mpr hleft), Option.some.injEq,
    Prod.mk.injEq] at hres
  obtain ⟨rfl, rfl⟩ := hres
  have hall := hbytes _ rfl
  rw [chain_cons, data_gathered, List.append_assoc] at hall
  exact harmless_of_right hothers (List.append_cancel_left hall)

/-- A length that no wrapping changes is not left over when it is negative. -/
theorem lenLeft_neg (hfits : total c < 2 ^ 31) (hneg : len < 0) (hlo : -2 ^ 31 + total c ≤ len) :
    lenLeft c len ≤ 0 := by
  rcases c with _ | ⟨n, next⟩
  · exact Int.le_of_lt hneg
  · rw [total_cons] at hfits hlo
    have hu : n.len ≤ u32 len := by
      rw [u32]
      omega
    have hi : i32 (len - (min (u32 len) n.len : Nat)) = len - n.len := by
      rw [Nat.min_eq_right hu]
      exact i32_eq (by omega) (by omega)
    rw [lenLeft, hi, Nat.min_eq_right hu, if_neg (by omega), if_neg (by omega)]
    omega

end Into

/-! ## The whole -/

/-- A chain, and other mbufs that may refer to its clusters. -/
structure World (Z : Sizes) (h : Heap) (c others : List Mbuf) : Prop where
  chain : Chain Z h c
  old : ∀ m ∈ others, m.Old h
  nodup : ((c ++ others).map Mbuf.addr).Nodup

/-- What `m_pullup` is to do: return null, or a chain with the same bytes and the first
`len` of them in its first mbuf; and leave what others have. -/
structure PullupRight (Z : Sizes) (h : Heap) (c : List Mbuf) (len : Int) (others : List Mbuf)
    (r : Option (List Mbuf)) (h' : Heap) : Prop where
  bytes : ∀ c' ∈ r, h'.chain c' = h.chain c
  contiguous : ∀ c' ∈ r, ∃ m next, c' = m :: next ∧ len ≤ m.len
  inside : ∀ c' ∈ r, ∀ m ∈ c', m.Inside Z
  others : ∀ m ∈ others, h'.data m = h.data m

/-- The bytes are to go to the first mbuf. -/
def InPlace (Z : Sizes) (n : Mbuf) (next : List Mbuf) (len : Int) : Prop :=
  n.ext = none ∧ n.data + len < Z.mlen ∧ next ≠ [] ∨
    n.ext ≠ none ∧ Z.mhlen < sizeT len ∧ n.data + len < n.data + Z.mclbytes ∧ next ≠ []

/-- The space there is in a new mbuf. -/
def newRoom (Z : Sizes) (n : Mbuf) (len : Int) : Nat :=
  if Z.mhlen < sizeT len then Z.mclbytes else if n.pkthdr.isSome = true then Z.mhlen else Z.mlen

/-- What is to go to the first mbuf has room behind its data, and does no harm there; what
is to go to a new mbuf has room in it. -/
def PullupFits (Z : Sizes) (h : Heap) (c : List Mbuf) (len : Int) (others : List Mbuf) : Prop :=
  ∀ n next, c = n :: next →
    (InPlace Z n next len → n.len < u32 len →
      Roomy Z n next (i32 (len - n.len)) ∧
        Harmless h n.store others (n.data + n.len) next (i32 (len - n.len))) ∧
    (¬ InPlace Z n next len → len ≤ Z.mclbytes → h.avail h.next = true →
      (Z.mhlen < sizeT len → h.avail (h.next + 1) = true) →
        gathered c len ≤ newRoom Z n len)

/-- The chain is as long as `len` says, if the bytes are to go to external storage. -/
def LongEnough (c : List Mbuf) (len : Int) : Prop :=
  ∀ n next, c = n :: next → n.ext = none ∨ len ≤ total c ∧ -2 ^ 31 + total c ≤ len

section Whole

variable {Z : Sizes} {h h' : Heap} {n : Mbuf} {next others : List Mbuf} {len : Int}

theorem mPullup_inPlace (hplace : InPlace Z n next len) :
    mPullup Z h (n :: next) len = pullupHere Z h n next len := by
  rcases hplace with ha | hb
  · exact if_pos ha
  · rw [mPullup, if_neg fun ha => hb.1 ha.1, if_pos hb]

theorem mPullup_new (hplace : ¬ InPlace Z n next len) :
    mPullup Z h (n :: next) len = pullupNew Z h n next len := by
  obtain ⟨ha, hb⟩ := not_or.mp hplace
  rw [mPullup, if_neg ha, if_neg hb]

/-- What is gathered makes up the length. -/
theorem contiguous_here (hlo : -2 ^ 31 ≤ len) (hhi : len < 2 ^ 31) (hlt : n.len < u32 len)
    (hleft : lenLeft next (i32 (len - n.len)) ≤ 0) :
    len ≤ (n.len + gathered next (i32 (len - n.len)) : Nat) := by
  rcases Int.lt_or_le len 0 with hneg | hnonneg
  · omega
  · have hu : (u32 len : Int) = len := by
      rw [u32, Int.emod_eq_of_lt hnonneg (by omega), Int.toNat_of_nonneg hnonneg]
    have hi : i32 (len - n.len) = len - n.len := i32_eq (by omega) (by omega)
    rw [lenLeft_eq (by omega) (by omega)] at hleft
    omega

theorem here_right (hw : World Z h (n :: next) others) (hlo : -2 ^ 31 ≤ len) (hhi : len < 2 ^ 31)
    (hfits : n.len < u32 len → Roomy Z n next (i32 (len - n.len)) ∧
      Harmless h n.store others (n.data + n.len) next (i32 (len - n.len))) :
    ∃ r h', pullupHere Z h n next len = some (r, h') ∧
      PullupRight Z h (n :: next) len others r h' := by
  obtain ⟨hn, hnext⟩ := List.forall_mem_cons.mp hw.chain.inside
  unfold pullupHere
  by_cases hle : u32 len ≤ n.len
  · rw [if_pos hle]
    refine ⟨_, _, rfl, fun c' hc' => ?_, fun c' hc' => ?_, fun c' hc' => ?_, fun _ _ => rfl⟩
    · rw [Option.some.inj hc']
    · refine ⟨n, next, (Option.some.inj hc').symm, ?_⟩
      rw [u32] at hle
      omega
    · rw [← Option.some.inj hc']
      exact hw.chain.inside
  · have hlt := Nat.lt_of_not_le hle
    rw [if_neg hle]
    obtain ⟨hroom, hharm⟩ := hfits hlt
    obtain ⟨r, h', hres, hothers, hr⟩ := pullupInto_right hroom hn.1 hn.2 hnext hharm
    refine ⟨r, h', hres, fun c' hc' => (hr c' hc').1, fun c' hc' => ?_,
      fun c' hc' => (hr c' hc').2.1, hothers⟩
    obtain ⟨-, -, hleft, next', rfl⟩ := hr c' hc'
    exact ⟨_, next', rfl, contiguous_here hlo hhi hlt hleft⟩

/-- An mbuf with its data in itself has it where no other mbuf has its data. -/
theorem store_ne_of_internal (hw : World Z h (n :: next) others) (he : n.ext = none) :
    ∀ m ∈ others ++ next, m.store ≠ n.store := by
  intro m hm heq
  have hnodup := hw.nodup
  rw [List.cons_append, List.map_cons, List.nodup_cons] at hnodup
  have haddr : m.addr = n.addr := by
    rw [Mbuf.store, Mbuf.store, he] at heq
    rcases hme : m.ext with _ | e
    · rw [hme] at heq
      simpa using heq
    · rw [hme] at heq
      exact absurd heq (by simp)
  refine hnodup.1 (haddr ▸ List.mem_map_of_mem ?_)
  rcases List.mem_append.mp hm with hm | hm
  · exact List.mem_append_right _ hm
  · exact List.mem_append_left _ hm

theorem fits_here (hw : World Z h (n :: next) others) (hlo : -2 ^ 31 ≤ len) (hhi : len < 2 ^ 31)
    (hlong : n.ext = none ∨ len ≤ total (n :: next) ∧ -2 ^ 31 + total (n :: next) ≤ len)
    (hlt : n.len < u32 len) {r : Option (List Mbuf)}
    (hres : pullupHere Z h n next len = some (r, h'))
    (hr : PullupRight Z h (n :: next) len others r h') :
    Roomy Z n next (i32 (len - n.len)) ∧
      Harmless h n.store others (n.data + n.len) next (i32 (len - n.len)) := by
  rw [pullupHere, if_neg (Nat.not_le.mpr hlt)] at hres
  refine ⟨roomy_of_result (h := h) (by rw [hres]; simp), ?_⟩
  rcases hlong with he | ⟨htotal, hwrap⟩
  · exact harmless_of_ne (store_ne_of_internal hw he)
  · have hfits := hw.chain.fits
    rw [total_cons] at htotal hwrap hfits
    have hi : i32 (len - n.len) = len - n.len := i32_eq (by omega) (by omega)
    have hleft : lenLeft next (i32 (len - n.len)) ≤ 0 := by
      rw [hi]
      rcases Int.lt_or_le (len - n.len) 0 with hneg | hnonneg
      · exact lenLeft_neg (by omega) hneg (by omega)
      · rw [lenLeft_eq hnonneg (by omega), gathered_eq hnonneg (by omega)]
        omega
    exact harmless_of_result hleft hres hr.others fun c' hc' => hr.bytes c' hc'

/-- A new mbuf, if there is memory for it: its area, and the chain it is for. -/
theorem pullupNew_cases (Z : Sizes) (h : Heap) (n : Mbuf) (next : List Mbuf) (len : Int) :
    (¬ (len ≤ Z.mclbytes ∧ h.avail h.next = true ∧
        (Z.mhlen < sizeT len → h.avail (h.next + 1) = true)) ∧
      ∃ h₁, pullupNew Z h n next len = some (none, mFreem h₁ (n :: next)) ∧ Extends h h₁) ∨
    (len ≤ Z.mclbytes ∧ h.avail h.next = true ∧
        (Z.mhlen < sizeT len → h.avail (h.next + 1) = true)) ∧
      ∃ m n' h₁, pullupNew Z h n next len = pullupInto Z h₁ m (n' :: next) len ∧ Extends h h₁ ∧
        h.next ≤ m.store.id ∧ m.base Z ≤ m.data ∧ m.len = 0 ∧
        m.data + newRoom Z n len = m.cap Z ∧ (n' = n ∨ n' = { n with pkthdr := none }) := by
  unfold pullupNew newRoom
  by_cases hle : Z.mclbytes < len
  · exact .inl ⟨fun hno => Int.not_le.mpr hle hno.1, h, if_pos hle, Extends.refl h⟩
  rw [if_neg hle]
  rcases hav : h.avail h.next with _ | _
  · refine .inl ⟨fun hno => Bool.false_ne_true hno.2.1, h.tick, ?_, extends_tick h⟩
    simp only [mGet, hav, Bool.false_eq_true, if_false]
  obtain ⟨m, hget, hb, hm, hdata⟩ := mGet_blank Z hav n.type
  simp only [hget]
  by_cases hbig : Z.mhlen < sizeT len
  · simp only [if_pos hbig]
    rcases hav' : h.tick.avail h.tick.next with _ | _
    · have hcl : mClget Z h.tick m = (m, h.tick.tick) := by
        rw [mClget, if_neg (by rw [hav']; exact Bool.false_ne_true)]
      refine .inl ⟨fun hno => Bool.false_ne_true (hav'.symm.trans (hno.2.2 hbig)), h.tick.tick, ?_,
        (extends_tick h).trans (extends_tick h.tick)⟩
      simp only [hcl, mFree, hb.none, and_true, if_pos hbig]
    · obtain ⟨o, h₁, hcl, hext, hostore, hodata, hocap, hopkt, hoext⟩ : ∃ o h₁,
          mClget Z h.tick m = (o, h₁) ∧ Extends h h₁ ∧ h.next ≤ o.store.id ∧ o.data = 0 ∧
            o.cap Z = Z.mclbytes ∧ o.pkthdr = none ∧ o.ext ≠ none := by
        have hext := (extends_tick h).trans (extends_clget Z h.tick m)
        rw [mClget, if_pos hav'] at hext ⊢
        exact ⟨_, _, rfl, hext, Nat.le_succ _, rfl, rfl, hm, by simp⟩
      refine .inr ⟨⟨Int.not_lt.mp hle, trivial, fun _ => hav'⟩, ?_⟩
      simp only [hcl, if_neg fun hno : _ ∧ _ => hoext hno.2]
      obtain ⟨e, he⟩ := Option.ne_none_iff_exists'.mp hoext
      by_cases hhdr : n.pkthdr.isSome = true
      · refine ⟨{ o with len := 0, pkthdr := n.pkthdr }, { n with pkthdr := none }, h₁, ?_, hext,
          hostore, ?_, rfl, ?_, .inr rfl⟩
        · rw [if_pos hhdr, mMovePkthdr]
          simp only [if_neg hoext]
        · simp only [Mbuf.base, he]
          exact Nat.zero_le _
        · show o.data + Z.mclbytes = o.cap Z
          rw [hodata, hocap, Nat.zero_add]
      · refine ⟨{ o with len := 0 }, n, h₁, by rw [if_neg hhdr], hext, hostore, ?_, rfl, ?_,
          .inl rfl⟩
        · simp only [Mbuf.base, he]
          exact Nat.zero_le _
        · show o.data + Z.mclbytes = o.cap Z
          rw [hodata, hocap, Nat.zero_add]
  · simp only [if_neg hbig, if_neg fun hno : _ ∧ _ => hbig hno.1]
    refine .inr ⟨⟨Int.not_lt.mp hle, trivial, fun hno => absurd hno hbig⟩, ?_⟩
    have hstore : h.next ≤ m.store.id := by
      rw [Mbuf.store, hb.none]
      exact hb.fresh
    by_cases hhdr : n.pkthdr.isSome = true
    · refine ⟨{ m with len := 0, pkthdr := n.pkthdr, data := Z.mlen - Z.mhlen },
        { n with pkthdr := none }, h.tick, ?_, hb.ext, ?_, ?_, rfl, ?_, .inr rfl⟩
      · rw [if_pos hhdr, mMovePkthdr]
        simp only [if_pos hb.none]
      · simp only [Mbuf.store, hb.none]
        exact hb.fresh
      · simp only [Mbuf.base, hb.none, hhdr, if_true]
        exact le_rfl
      · simp only [Mbuf.cap, hb.none, if_pos hhdr]
        exact Nat.sub_add_cancel Z.mhlen_le
    · refine ⟨{ m with len := 0 }, n, h.tick, by rw [if_neg hhdr], hb.ext, hstore, hb.start, rfl,
        ?_, .inl rfl⟩
      simp only [Mbuf.cap, hb.none, if_neg hhdr]
      rw [hdata, Nat.zero_add]

theorem new_right (hw : World Z h (n :: next) others) (hhi : len < 2 ^ 31)
    (hfits : len ≤ Z.mclbytes → h.avail h.next = true →
      (Z.mhlen < sizeT len → h.avail (h.next + 1) = true) →
        gathered (n :: next) len ≤ newRoom Z n len) :
    ∃ r h', pullupNew Z h n next len = some (r, h') ∧
      PullupRight Z h (n :: next) len others r h' := by
  rcases pullupNew_cases Z h n next len with
    ⟨-, h₁, heq, hext⟩ | ⟨⟨hle, hav, hav'⟩, m, n', h₁, heq, hext, hfresh, hbase, hzero, hspace, hn'⟩
  · refine ⟨_, _, heq, fun _ hc' => absurd hc' (by simp), fun _ hc' => absurd hc' (by simp),
      fun _ hc' => absurd hc' (by simp), fun a ha => ?_⟩
    rw [mFreem_data, hext.data (hw.old a ha)]
  · have hcap := hfits hle hav hav'
    obtain ⟨hin, hinnext⟩ := List.forall_mem_cons.mp hw.chain.inside
    have hin' : ∀ a ∈ n' :: next, a.Inside Z := by
      refine List.forall_mem_cons.mpr ⟨?_, hinnext⟩
      rcases hn' with rfl | rfl
      · exact hin
      · refine ⟨?_, hin.2⟩
        simp only [Mbuf.base]
        split <;> exact Nat.zero_le _
    have hchain : h₁.chain (n' :: next) = h.chain (n :: next) := by
      rw [← hext.chain hw.chain.old]
      rcases hn' with rfl | rfl <;> rfl
    have hgath : gathered (n' :: next) len = gathered (n :: next) len := by
      rcases hn' with rfl | rfl <;> rfl
    have hroom : Roomy Z m (n' :: next) len := .inr (by
      omega)
    have hne : ∀ a ∈ others ++ n' :: next, a.store ≠ m.store := by
      have hid : ∀ a : Mbuf, a.Old h → a.store ≠ m.store := fun a ha heqs => by
        have hlt := ha.store
        rw [heqs] at hlt
        exact absurd hfresh (Nat.not_le.mpr hlt)
      refine List.forall_mem_append.mpr ⟨fun a ha => hid a (hw.old a ha), ?_⟩
      obtain ⟨hold, holdnext⟩ := List.forall_mem_cons.mp hw.chain.old
      refine List.forall_mem_cons.mpr ⟨?_, fun a ha => hid a (holdnext a ha)⟩
      rcases hn' with rfl | rfl
      · exact hid _ hold
      · exact hid n hold
    obtain ⟨r, h', hres, hothers, hr⟩ := pullupInto_right (h := h₁) hroom hbase
      (by omega) hin' (harmless_of_ne hne)
    refine ⟨r, h', heq.trans hres, fun c' hc' => ?_, fun c' hc' => ?_,
      fun c' hc' => (hr c' hc').2.1, fun a ha => (hothers a ha).trans (hext.data (hw.old a ha))⟩
    · have hnil : h₁.data m = [] := by
        rw [← List.length_eq_zero_iff, data_length, hzero]
      rw [(hr c' hc').1, hnil, List.nil_append, hchain]
    · obtain ⟨-, -, hleft, next', rfl⟩ := hr c' hc'
      refine ⟨_, next', rfl, ?_⟩
      show len ≤ ((m.len + gathered (n' :: next) len : Nat) : Int)
      rcases Int.lt_or_le len 0 with hneg | hnonneg
      · omega
      · rw [lenLeft_eq hnonneg hhi] at hleft
        omega

theorem fits_new {r : Option (List Mbuf)} (hres : pullupNew Z h n next len = some (r, h'))
    (hle : len ≤ Z.mclbytes) (hav : h.avail h.next = true)
    (hav' : Z.mhlen < sizeT len → h.avail (h.next + 1) = true) :
    gathered (n :: next) len ≤ newRoom Z n len := by
  rcases pullupNew_cases Z h n next len with
    ⟨hno, -⟩ | ⟨-, m, n', h₁, heq, -, -, -, hzero, hspace, hn'⟩
  · exact absurd ⟨hle, hav, hav'⟩ hno
  · have hgath : gathered (n' :: next) len = gathered (n :: next) len := by
      rcases hn' with rfl | rfl <;> rfl
    have hroom : Roomy Z m (n' :: next) len := roomy_of_result (h := h₁) (by
      rw [← heq, hres]
      simp)
    unfold Roomy at hroom
    omega

end Whole

/-- Two clusters that nothing else refers to: 100 bytes at the beginning of one, 100 in
the other. -/
def twoClusters : List Mbuf :=
  [⟨0, 0, 100, 1, some ⟨2, 2048, true⟩, some 200⟩, ⟨1, 0, 100, 1, some ⟨3, 2048, true⟩, none⟩]

/-- An mbuf of another chain that has the bytes behind the first 100. -/
def otherHalf : List Mbuf := [⟨4, 100, 100, 1, some ⟨2, 2048, true⟩, none⟩]

/-- A heap where the buffer 3 has ones. -/
def oneHeap : Heap :=
  ⟨fun s _ => if s = .ext 3 then 1 else 0, fun _ => 2, 5, fun _ => true, fun _ => 0⟩

theorem twoClusters_world : World Sizes.amd64 oneHeap twoClusters otherHalf where
  chain :=
    { ne := by simp [twoClusters]
      old := by simp [twoClusters, Mbuf.Old, oneHeap]
      inside := by simp [twoClusters, Mbuf.Inside, Mbuf.base, Mbuf.cap]
      nodup := by simp [twoClusters]
      refs := by
        intro buf
        simp only [refsIn, twoClusters, oneHeap]
        exact Nat.le_trans List.countP_le_length (by simp)
      pkthdr := by simp [twoClusters, packetLen]
      fits := by simp [twoClusters] }
  old := by simp [otherHalf, Mbuf.Old, oneHeap]
  nodup := by simp [twoClusters, otherHalf]

end Obsd.MbufChain
