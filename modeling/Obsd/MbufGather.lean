import Obsd.MbufAdj

/-!
# Gathering the bytes of a chain in an mbuf

The loop of `m_pullup` (`uipc_mbuf.c`) copies bytes from a chain behind the
data of an mbuf and takes them from the chain. What it copies, what it leaves
of the chain and of the length does not depend on the bytes (`gathered`,
`leftOver`, `lenLeft`).

The area it writes to may be one that others see: a cluster that another chain
refers to, or that the chain itself does further on. The bytes come out right
exactly if each piece is there already wherever it is seen (`Harmless`).
-/

namespace Obsd.MbufChain

/-- The loop: the mbuf with the bytes, and what is left of the chain and of `len`. -/
def gather (Z : Sizes) : Heap → Mbuf → List Mbuf → Int → Option (Mbuf × List Mbuf × Int × Heap)
  | h, m, [], len => some (m, [], len, h)
  | h, m, n :: next, len =>
    let count := min (u32 len) n.len
    match h.put Z m (m.data + m.len) (h.bytes n.store n.data count) with
    | none => none
    | some h =>
      let m := { m with len := m.len + count }
      let left := i32 (len - count)
      -- with data left in `n` the count was all of `len`, and the loop ends
      if n.len - count ≠ 0 then
        some (m, { n with len := n.len - count, data := n.data + count } :: next, left, h)
      else if 0 < left then gather Z (mFree h n) m next left
      else some (m, next, left, mFree h n)

/-- How many bytes the loop takes. -/
def gathered : List Mbuf → Int → Nat
  | [], _ => 0
  | n :: next, len =>
    let count := min (u32 len) n.len
    if n.len - count ≠ 0 then count
    else if 0 < i32 (len - count) then count + gathered next (i32 (len - count))
    else count

/-- What it leaves of the chain. -/
def leftOver : List Mbuf → Int → List Mbuf
  | [], _ => []
  | n :: next, len =>
    let count := min (u32 len) n.len
    if n.len - count ≠ 0 then { n with len := n.len - count, data := n.data + count } :: next
    else if 0 < i32 (len - count) then leftOver next (i32 (len - count))
    else next

/-- And of the length. -/
def lenLeft : List Mbuf → Int → Int
  | [], len => len
  | n :: next, len =>
    let count := min (u32 len) n.len
    if n.len - count ≠ 0 then i32 (len - count)
    else if 0 < i32 (len - count) then lenLeft next (i32 (len - count))
    else i32 (len - count)

/-- Bytes written to an area are there already, where the mbuf has its data. -/
def Keeps (h : Heap) (s : Store) (p : Nat) (bs : List UInt8) (m : Mbuf) : Prop :=
  (h.write s p bs).data m = h.data m

/-- What the loop writes from `p` on is there already, where others see it or the chain has
it that is left. -/
def Harmless (h : Heap) (s : Store) (others : List Mbuf) : Nat → List Mbuf → Int → Prop
  | _, [], _ => True
  | p, n :: next, len =>
    let count := min (u32 len) n.len
    let bs := h.bytes n.store n.data count
    (∀ m ∈ others ++ next, Keeps h s p bs m) ∧
      if n.len - count ≠ 0 then
        Keeps h s p bs { n with len := n.len - count, data := n.data + count }
      else 0 < i32 (len - count) → Harmless h s others (p + count) next (i32 (len - count))

/-! ## Without the bytes -/

section Shape

variable {Z : Sizes} {h h' : Heap} {m : Mbuf} {c : List Mbuf} {len : Int}

theorem leftOver_inside (hin : ∀ m ∈ c, m.Inside Z) (len : Int) :
    ∀ m ∈ leftOver c len, m.Inside Z := by
  induction c generalizing len with
  | nil => exact fun _ hm => absurd hm (by simp [leftOver])
  | cons n next ih =>
    obtain ⟨hn, hnext⟩ := List.forall_mem_cons.mp hin
    rw [leftOver]
    split
    · refine List.forall_mem_cons.mpr ⟨⟨Nat.le_trans hn.1 (Nat.le_add_right _ _), ?_⟩, hnext⟩
      have hcap := hn.2
      show n.data + min (u32 len) n.len + (n.len - min (u32 len) n.len) ≤ n.cap Z
      omega
    · split
      · exact ih hnext _
      · exact hnext

/-- A length that is no `int` overflow is what is gathered and what is left. -/
theorem lenLeft_eq (hlo : 0 ≤ len) (hhi : len < 2 ^ 31) : lenLeft c len = len - gathered c len := by
  induction c generalizing len with
  | nil => simp [lenLeft, gathered]
  | cons n next ih =>
    have hu : u32 len = len.toNat := by
      rw [u32, Int.emod_eq_of_lt hlo (by omega)]
    have hi : i32 (len - (min (u32 len) n.len : Nat)) = len - (min (u32 len) n.len : Nat) :=
      i32_eq (by omega) (by omega)
    rw [lenLeft, gathered, hi]
    split
    · rfl
    · split
      · rw [ih (by omega) (by omega)]
        omega
      · rfl

/-- And what is gathered is all of it, or all there is. -/
theorem gathered_eq (hlo : 0 ≤ len) (hhi : len < 2 ^ 31) :
    gathered c len = min len.toNat (total c) := by
  induction c generalizing len with
  | nil => simp [gathered]
  | cons n next ih =>
    have hu : u32 len = len.toNat := by
      rw [u32, Int.emod_eq_of_lt hlo (by omega)]
    have hi : i32 (len - (min (u32 len) n.len : Nat)) = len - (min (u32 len) n.len : Nat) :=
      i32_eq (by omega) (by omega)
    rw [gathered, hi, total_cons]
    split
    · omega
    · split
      · rw [ih (by omega) (by omega)]
        omega
      · omega

end Shape

/-! ## The bytes -/

/-- The heap after the loop, when there is room. -/
def gatherHeap (s : Store) : Heap → Nat → List Mbuf → Int → Heap
  | h, _, [], _ => h
  | h, p, n :: next, len =>
    let count := min (u32 len) n.len
    let h := h.write s p (h.bytes n.store n.data count)
    if n.len - count ≠ 0 then h
    else if 0 < i32 (len - count) then
      gatherHeap s (mFree h n) (p + count) next (i32 (len - count))
    else mFree h n

section Bytes

variable {Z : Sizes} {h h' : Heap} {s : Store} {m n : Mbuf} {c others : List Mbuf} {len : Int}
  {p k : Nat} {bs : List UInt8}

@[simp] theorem mFree_byte (h : Heap) (m : Mbuf) : (mFree h m).byte = h.byte := by
  unfold mFree
  split <;> rfl

@[simp] theorem mFree_next (h : Heap) (m : Mbuf) : (mFree h m).next = h.next := by
  unfold mFree
  split <;> rfl

@[simp] theorem mFree_avail (h : Heap) (m : Mbuf) : (mFree h m).avail = h.avail := by
  unfold mFree
  split <;> rfl

@[simp] theorem mFree_junk (h : Heap) (m : Mbuf) : (mFree h m).junk = h.junk := by
  unfold mFree
  split <;> rfl

theorem Frame.free (hf : Frame s p k h h') (m : Mbuf) : Frame s p k h (mFree h' m) where
  other s' hs := by rw [mFree_byte, hf.other s' hs]
  outside a ha := by rw [mFree_byte, hf.outside a ha]
  next := by rw [mFree_next, hf.next]
  avail := by rw [mFree_avail, hf.avail]
  junk := by rw [mFree_junk, hf.junk]

theorem mFree_data (h : Heap) (m n : Mbuf) : (mFree h n).data m = h.data m :=
  data_congr (by rw [mFree_byte])

theorem mFree_bytes (h : Heap) (n : Mbuf) (s : Store) (p k : Nat) :
    (mFree h n).bytes s p k = h.bytes s p k := bytes_congr fun _ _ _ => by rw [mFree_byte]

theorem mFree_chain (h : Heap) (n : Mbuf) (c : List Mbuf) : (mFree h n).chain c = h.chain c :=
  chain_congr fun m _ => mFree_data h m n

/-- A piece that is written, and nothing else. -/
theorem frame_piece (h : Heap) (s : Store) (p : Nat) (n : Mbuf) (k : Nat) :
    Frame s p k h (h.write s p (h.bytes n.store n.data k)) := by
  have hframe := frame_write h s p (h.bytes n.store n.data k)
  rwa [bytes_length] at hframe

theorem gatherHeap_frame (s : Store) (h : Heap) (p : Nat) (c : List Mbuf) (len : Int) :
    Frame s p (gathered c len) h (gatherHeap s h p c len) := by
  induction c generalizing h p len with
  | nil => exact Frame.refl _ _ _ _
  | cons n next ih =>
    have hpiece := frame_piece h s p n (min (u32 len) n.len)
    rw [gathered, gatherHeap]
    split
    · exact hpiece
    · split
      · exact (hpiece.free n).append (ih _ _ _)
      · exact hpiece.free n

/-- The loop comes to its end exactly if there is room for what it gathers. -/
theorem gather_eq (hroom : gathered c len = 0 ∨ m.data + m.len + gathered c len ≤ m.cap Z) :
    gather Z h m c len = some ({ m with len := m.len + gathered c len }, leftOver c len,
      lenLeft c len, gatherHeap m.store h (m.data + m.len) c len) := by
  induction c generalizing h m len with
  | nil => rfl
  | cons n next ih =>
    rw [gathered] at hroom
    rw [gather, gathered, leftOver, lenLeft, gatherHeap]
    have hput : h.put Z m (m.data + m.len) (h.bytes n.store n.data (min (u32 len) n.len)) =
        some (h.write m.store (m.data + m.len) (h.bytes n.store n.data (min (u32 len) n.len))) := by
      refine put_eq ?_
      rw [bytes_length]
      by_cases hzero : min (u32 len) n.len = 0
      · exact .inl (by rw [hzero, bytes_zero])
      · refine .inr ?_
        split at hroom
        · omega
        · split at hroom <;> omega
    simp only [hput]
    by_cases hmore : n.len - min (u32 len) n.len ≠ 0
    · simp only [if_pos hmore]
    · rw [if_neg hmore] at hroom
      simp only [if_neg hmore]
      by_cases hpos : 0 < i32 (len - (min (u32 len) n.len : Nat))
      · rw [if_pos hpos] at hroom
        simp only [if_pos hpos]
        rw [ih (by
          show _ ∨ m.data + (m.len + min (u32 len) n.len) + _ ≤ m.cap Z
          omega)]
        rw [Nat.add_assoc m.len, Nat.add_assoc m.data m.len]
        rfl
      · simp only [if_neg hpos]

theorem gather_none (hroom : ¬ (gathered c len = 0 ∨ m.data + m.len + gathered c len ≤ m.cap Z)) :
    gather Z h m c len = none := by
  induction c generalizing h m len with
  | nil => exact absurd (.inl rfl) hroom
  | cons n next ih =>
    rw [gathered] at hroom
    rw [gather]
    by_cases hfit : min (u32 len) n.len = 0 ∨ m.data + m.len + min (u32 len) n.len ≤ m.cap Z
    · have hput : h.put Z m (m.data + m.len) (h.bytes n.store n.data (min (u32 len) n.len)) =
          some (h.write m.store (m.data + m.len)
            (h.bytes n.store n.data (min (u32 len) n.len))) := by
        refine put_eq ?_
        rw [bytes_length]
        exact hfit.imp_left fun hzero => by rw [hzero, bytes_zero]
      simp only [hput]
      by_cases hmore : n.len - min (u32 len) n.len ≠ 0
      · rw [if_pos hmore] at hroom
        exact absurd hfit hroom
      · rw [if_neg hmore] at hroom
        simp only [if_neg hmore]
        by_cases hpos : 0 < i32 (len - (min (u32 len) n.len : Nat))
        · rw [if_pos hpos] at hroom
          simp only [if_pos hpos]
          refine ih ?_
          show ¬ (_ ∨ m.data + (m.len + min (u32 len) n.len) + _ ≤ m.cap Z)
          omega
        · rw [if_neg hpos] at hroom
          exact absurd hfit hroom
    · have hput : h.put Z m (m.data + m.len) (h.bytes n.store n.data (min (u32 len) n.len)) =
          none := by
        refine put_none (fun hnil => hfit (.inl ?_)) fun hcap => hfit (.inr ?_)
        · rw [← bytes_length h n.store n.data (min (u32 len) n.len), hnil, List.length_nil]
        · rw [bytes_length] at hcap
          exact hcap
      simp only [hput]

/-- What an mbuf has beyond the bytes taken. -/
def beyond (n : Mbuf) (k : Nat) : Mbuf := { n with len := n.len - k, data := n.data + k }

theorem data_beyond (h : Heap) {n : Mbuf} {k : Nat} (hk : k ≤ n.len) :
    h.data n = h.bytes n.store n.data k ++ h.data (beyond n k) := by
  have hsplit := List.take_append_drop k (h.data n)
  rw [← data_drop h hk, Heap.data, take_bytes _ _ _ hk] at hsplit
  exact hsplit.symm

/-- Whether an mbuf keeps its data depends on its data only. -/
theorem keeps_congr (hm : h'.data m = h.data m) : Keeps h' s p bs m ↔ Keeps h s p bs m := by
  have hbyte := data_eq_iff.mp hm
  have hwrite : ∀ k, m.data ≤ k → k < m.data + m.len →
      (h'.write s p bs).byte m.store k = (h.write s p bs).byte m.store k := fun k hk hk' => by
    simp only [Heap.write, hbyte k hk hk']
  unfold Keeps
  rw [data_eq_iff.mpr hwrite, hm]

theorem harmless_congr (hsame : ∀ m ∈ others ++ c, h'.data m = h.data m) :
    Harmless h' s others p c len ↔ Harmless h s others p c len := by
  induction c generalizing p len with
  | nil => exact Iff.rfl
  | cons n next ih =>
    have hn : h'.data n = h.data n := hsame n (List.mem_append_right _ List.mem_cons_self)
    have hrest : ∀ m ∈ others ++ next, h'.data m = h.data m := fun m hm => hsame m (by
      rcases List.mem_append.mp hm with hm | hm
      · exact List.mem_append_left _ hm
      · exact List.mem_append_right _ (List.mem_cons_of_mem n hm))
    have hle : min (u32 len) n.len ≤ n.len := Nat.min_le_right _ _
    have hparts := hn
    rw [data_beyond h' hle, data_beyond h hle] at hparts
    obtain ⟨hbs, hmore⟩ := List.append_inj hparts (by rw [bytes_length, bytes_length])
    rw [Harmless, Harmless, hbs]
    refine and_congr (forall₂_congr fun m hm => keeps_congr (hrest m hm)) ?_
    split
    · exact keeps_congr hmore
    · exact imp_congr Iff.rfl (ih hrest)

/-- Without harm the bytes come out as they were, and others keep theirs. -/
theorem gatherHeap_right (hh : Harmless h s others p c len) :
    (∀ m ∈ others, (gatherHeap s h p c len).data m = h.data m) ∧
      (gatherHeap s h p c len).bytes s p (gathered c len) ++
        (gatherHeap s h p c len).chain (leftOver c len) = h.chain c := by
  induction c generalizing h p len with
  | nil => exact ⟨fun _ _ => rfl, rfl⟩
  | cons n next ih =>
    have hle : min (u32 len) n.len ≤ n.len := Nat.min_le_right _ _
    have hwritten := bytes_write h s p (h.bytes n.store n.data (min (u32 len) n.len))
    rw [bytes_length] at hwritten
    obtain ⟨hkeep, hrest⟩ := hh
    have hothers := fun m hm => hkeep m (List.mem_append_left next hm)
    have hnext := fun m hm => hkeep m (List.mem_append_right others hm)
    rw [gatherHeap, gathered, leftOver, chain_cons, data_beyond h hle]
    by_cases hmore : n.len - min (u32 len) n.len ≠ 0
    · rw [if_pos hmore] at hrest
      simp only [if_pos hmore]
      refine ⟨hothers, ?_⟩
      rw [hwritten, chain_cons, chain_congr hnext, List.append_assoc]
      exact congrArg (fun bs => _ ++ (bs ++ _)) hrest
    · rw [if_neg hmore] at hrest
      have hnil : h.data (beyond n (min (u32 len) n.len)) = [] := by
        rw [← List.length_eq_zero_iff, data_length]
        exact not_not.mp hmore
      simp only [if_neg hmore]
      rw [hnil, List.append_nil]
      by_cases hpos : 0 < i32 (len - (min (u32 len) n.len : Nat))
      · simp only [if_pos hpos]
        generalize hh₁ : mFree (h.write s p (h.bytes n.store n.data (min (u32 len) n.len))) n = h₁
        have hdata : ∀ m ∈ others ++ next, h₁.data m = h.data m := fun m hm => by
          rw [← hh₁, mFree_data]
          exact hkeep m hm
        obtain ⟨hothers', hbytes⟩ := ih ((harmless_congr hdata).mpr (hrest hpos))
        refine ⟨fun m hm => (hothers' m hm).trans (hdata m (List.mem_append_left _ hm)), ?_⟩
        have hframe := gatherHeap_frame s h₁ (p + min (u32 len) n.len) next
          (i32 (len - (min (u32 len) n.len : Nat)))
        have hfirst : h₁.bytes s p (min (u32 len) n.len) =
            h.bytes n.store n.data (min (u32 len) n.len) := by
          rw [← hwritten, ← hh₁, mFree_bytes]
        rw [bytes_add, hframe.before le_rfl, hfirst, List.append_assoc, hbytes,
          chain_congr fun m hm => hdata m (List.mem_append_right _ hm)]
      · simp only [if_neg hpos]
        refine ⟨fun m hm => (mFree_data _ _ _).trans (hothers m hm), ?_⟩
        rw [mFree_bytes, mFree_chain, hwritten, chain_congr hnext]

/-- Where the bytes of a chain are. -/
def places (c : List Mbuf) : List (Store × Nat) :=
  c.flatMap fun m => (List.range m.len).map fun i => (m.store, m.data + i)

theorem mem_places (hm : m ∈ c) (hk : m.data ≤ k) (hk' : k < m.data + m.len) :
    (m.store, k) ∈ places c := by
  refine List.mem_flatMap.mpr ⟨m, hm, List.mem_map.mpr ⟨k - m.data, ?_, ?_⟩⟩
  · exact List.mem_range.mpr (by omega)
  · rw [Nat.add_sub_cancel' hk]

theorem chain_places (h : Heap) (c : List Mbuf) :
    h.chain c = (places c).map fun l => h.byte l.1 l.2 := by
  induction c with
  | nil => rfl
  | cons m c ih =>
    rw [chain_cons, ih]
    unfold places
    rw [List.flatMap_cons, List.map_append, List.map_map]
    rfl

theorem places_cut (next : List Mbuf) (hk : k ≤ n.len) :
    places (n :: next) = places [{ n with len := k }] ++ places (beyond n k :: next) := by
  obtain ⟨b, hb⟩ := Nat.exists_eq_add_of_le hk
  have hrange : (List.range n.len).map (fun i => (n.store, n.data + i)) =
      (List.range k).map (fun i => (n.store, n.data + i)) ++
        (List.range (n.len - k)).map fun i => (n.store, n.data + k + i) := by
    rw [hb, Nat.add_sub_cancel_left, List.range_add, List.map_append, List.map_map]
    congr 1
    exact List.map_congr_left fun i _ => by rw [Function.comp_apply, Nat.add_assoc]
  unfold places
  rw [List.flatMap_cons, hrange, List.flatMap_cons, List.flatMap_cons, List.flatMap_nil,
    List.append_nil, List.append_assoc]
  rfl

/-- `b` is what is at a place now, if it is before `p`. -/
def Now (h : Heap) (s : Store) (p : Nat) (b : UInt8) (l : Store × Nat) : Prop :=
  (l.1 ≠ s ∨ l.2 < p) → b = h.byte l.1 l.2

/-- What is written afterwards is no earlier byte of the area. -/
theorem now_chain (hf : Frame s p k h h') (c : List Mbuf) :
    List.Forall₂ (Now h s p) (h'.chain c) (places c) := by
  rw [chain_places, List.forall₂_map_left_iff]
  refine List.forall₂_same.mpr fun l _ hl => ?_
  rcases hl with hne | hlt
  · exact congrFun (hf.other _ hne) _
  · by_cases hs : l.1 = s
    · rw [hs]
      exact hf.outside _ (.inl hlt)
    · exact congrFun (hf.other _ hs) _

/-- The loop moves the bytes that are there when it begins, of places it does not write. -/
theorem gatherHeap_now (s : Store) (h : Heap) (p : Nat) (c : List Mbuf) (len : Int) :
    List.Forall₂ (Now h s p) ((gatherHeap s h p c len).bytes s p (gathered c len) ++
      (gatherHeap s h p c len).chain (leftOver c len)) (places c) := by
  induction c generalizing h p len with
  | nil => exact .nil
  | cons n next ih =>
    have hle : min (u32 len) n.len ≤ n.len := Nat.min_le_right _ _
    have hwritten := bytes_write h s p (h.bytes n.store n.data (min (u32 len) n.len))
    rw [bytes_length] at hwritten
    have hpiece := frame_piece h s p n (min (u32 len) n.len)
    have hfirst : List.Forall₂ (Now h s p) (h.bytes n.store n.data (min (u32 len) n.len))
        (places [{ n with len := min (u32 len) n.len }]) := by
      have hrefl := now_chain (Frame.refl s p 0 h) [{ n with len := min (u32 len) n.len }]
      rw [chain_cons, chain_nil, List.append_nil] at hrefl
      exact hrefl
    rw [gatherHeap, gathered, leftOver, places_cut next hle]
    by_cases hmore : n.len - min (u32 len) n.len ≠ 0
    · simp only [if_pos hmore]
      rw [hwritten]
      exact List.rel_append hfirst (now_chain hpiece _)
    · have hnone : places (beyond n (min (u32 len) n.len) :: next) = places next := by
        have hzero : n.len - min (u32 len) n.len = 0 := not_not.mp hmore
        unfold places beyond
        rw [List.flatMap_cons, hzero]
        rfl
      simp only [if_neg hmore]
      rw [hnone]
      by_cases hpos : 0 < i32 (len - (min (u32 len) n.len : Nat))
      · simp only [if_pos hpos]
        have hframe := gatherHeap_frame s
          (mFree (h.write s p (h.bytes n.store n.data (min (u32 len) n.len))) n)
          (p + min (u32 len) n.len) next (i32 (len - (min (u32 len) n.len : Nat)))
        rw [bytes_add, hframe.before le_rfl, mFree_bytes, hwritten, List.append_assoc]
        refine List.rel_append hfirst ((ih _ _ _).imp fun b l hb hl => ?_)
        rw [hb (hl.imp_right fun hlt => Nat.lt_of_lt_of_le hlt (Nat.le_add_right _ _)), mFree_byte]
        rcases hl with hne | hlt
        · exact congrFun (hpiece.other _ hne) _
        · by_cases hs : l.1 = s
          · rw [hs]
            exact hpiece.outside _ (.inl hlt)
          · exact congrFun (hpiece.other _ hs) _
      · simp only [if_neg hpos]
        rw [mFree_bytes, hwritten]
        exact List.rel_append hfirst (now_chain (hpiece.free n) _)

/-- What comes out right was not harmed on the way. -/
theorem harmless_of_right (hothers : ∀ m ∈ others, (gatherHeap s h p c len).data m = h.data m)
    (hbytes : (gatherHeap s h p c len).bytes s p (gathered c len) ++
      (gatherHeap s h p c len).chain (leftOver c len) = h.chain c) :
    Harmless h s others p c len := by
  induction c generalizing h p len with
  | nil => exact trivial
  | cons n next ih =>
    have hle : min (u32 len) n.len ≤ n.len := Nat.min_le_right _ _
    have hwritten := bytes_write h s p (h.bytes n.store n.data (min (u32 len) n.len))
    rw [bytes_length] at hwritten
    have hpiece := frame_piece h s p n (min (u32 len) n.len)
    rw [gatherHeap, gathered, leftOver, chain_cons, data_beyond h hle] at hbytes
    rw [gatherHeap] at hothers
    rw [Harmless]
    by_cases hmore : n.len - min (u32 len) n.len ≠ 0
    · simp only [if_pos hmore] at hbytes hothers ⊢
      rw [hwritten, List.append_assoc] at hbytes
      have hrest : (h.write s p (h.bytes n.store n.data (min (u32 len) n.len))).chain
          (beyond n (min (u32 len) n.len) :: next) =
            h.chain (beyond n (min (u32 len) n.len) :: next) := List.append_cancel_left hbytes
      obtain ⟨hn, hnext⟩ := List.forall_mem_cons.mp (data_of_chain hrest)
      exact ⟨List.forall_mem_append.mpr ⟨hothers, hnext⟩, hn⟩
    · have hnil : h.data (beyond n (min (u32 len) n.len)) = [] := by
        rw [← List.length_eq_zero_iff, data_length]
        exact not_not.mp hmore
      simp only [if_neg hmore] at hbytes hothers ⊢
      rw [hnil, List.append_nil] at hbytes
      by_cases hpos : 0 < i32 (len - (min (u32 len) n.len : Nat))
      · simp only [if_pos hpos] at hbytes hothers
        generalize hh₁ : mFree (h.write s p (h.bytes n.store n.data (min (u32 len) n.len))) n = h₁
          at hbytes hothers
        have hframe := gatherHeap_frame s h₁ (p + min (u32 len) n.len) next
          (i32 (len - (min (u32 len) n.len : Nat)))
        have hpiece₁ : Frame s p (min (u32 len) n.len) h h₁ := hh₁ ▸ hpiece.free n
        have hfirst : h₁.bytes s p (min (u32 len) n.len) =
            h.bytes n.store n.data (min (u32 len) n.len) := by
          rw [← hwritten, ← hh₁, mFree_bytes]
        rw [bytes_add, hframe.before le_rfl, hfirst, List.append_assoc] at hbytes
        have hrest := List.append_cancel_left hbytes
        -- what the loop has not written yet is as it was, and it moves what it finds
        have hnow := gatherHeap_now s h₁ (p + min (u32 len) n.len) next
          (i32 (len - (min (u32 len) n.len : Nat)))
        rw [hrest, chain_places, List.forall₂_map_left_iff, List.forall₂_same] at hnow
        have hnext₁ : ∀ m ∈ next, h₁.data m = h.data m := by
          refine fun m hm => data_eq_iff.mpr fun k hk hk' => ?_
          by_cases hlate : m.store ≠ s ∨ k < p + min (u32 len) n.len
          · exact (hnow (m.store, k) (mem_places hm hk hk') hlate).symm
          · obtain ⟨hs, hlate⟩ := not_or.mp hlate
            rw [not_not.mp hs]
            exact hpiece₁.outside k (.inr (Nat.le_of_not_lt hlate))
        have hothers₁ : ∀ m ∈ others, h₁.data m = h.data m := by
          refine fun m hm => data_eq_iff.mpr fun k hk hk' => ?_
          have hend := data_eq_iff.mp (hothers m hm) k hk hk'
          by_cases hs : m.store = s
          · rw [hs] at hend ⊢
            rcases Nat.lt_or_ge k (p + min (u32 len) n.len) with hlt | hge
            · rw [← hend, hframe.outside k (.inl hlt)]
            · exact hpiece₁.outside k (.inr hge)
          · rw [hpiece₁.other _ hs]
        have hall : ∀ m ∈ others ++ next, h₁.data m = h.data m :=
          List.forall_mem_append.mpr ⟨hothers₁, hnext₁⟩
        have hharm := ih (fun m hm => (hothers m hm).trans (hothers₁ m hm).symm)
          (hrest.trans (chain_congr hnext₁).symm)
        refine ⟨fun m hm => ?_, fun _ => (harmless_congr hall).mp hharm⟩
        have hdata := hall m hm
        rw [← hh₁, mFree_data] at hdata
        exact hdata
      · simp only [if_neg hpos] at hbytes hothers
        rw [mFree_bytes, hwritten, mFree_chain] at hbytes
        have hnext := data_of_chain (List.append_cancel_left hbytes)
        refine ⟨List.forall_mem_append.mpr ⟨fun m hm => ?_, hnext⟩, fun hno => absurd hno hpos⟩
        exact (mFree_data _ _ _).symm.trans (hothers m hm)

/-- An area that none of the mbufs has its data in. -/
theorem harmless_of_ne (hne : ∀ m ∈ others ++ c, m.store ≠ s) : Harmless h s others p c len := by
  have hkeeps : ∀ h p bs, ∀ m, m.store ≠ s → Keeps h s p bs m := fun h p bs m hm =>
    data_congr (write_byte_of_ne hm)
  induction c generalizing p len with
  | nil => exact trivial
  | cons n next ih =>
    have hn : n.store ≠ s := hne n (List.mem_append_right _ List.mem_cons_self)
    have hrest : ∀ m ∈ others ++ next, m.store ≠ s := fun m hm => hne m (by
      rcases List.mem_append.mp hm with hm | hm
      · exact List.mem_append_left _ hm
      · exact List.mem_append_right _ (List.mem_cons_of_mem n hm))
    refine ⟨fun m hm => hkeeps _ _ _ m (hrest m hm), ?_⟩
    split
    · exact hkeeps _ _ _ (beyond n (min (u32 len) n.len)) hn
    · exact fun _ => ih hrest

end Bytes

end Obsd.MbufChain
