import Obsd.MbufAdj

/-!
# Removing the ESP header from a packet

`esp_input_cb` (`ip_esp.c`) takes the ESP header and the IV, `hlen` bytes, out
of a decrypted packet: after the first `skip` bytes. Where the mbuf that has
the first of them begins and ends decides how.

The bytes come out right unless they are moved inside a buffer where another
mbuf of the packet looks on. The packet length does not: what is cut off the
end of an mbuf is taken from it after `m_len` has changed.
-/

namespace Obsd.MbufChain

/-! ## The code -/

/-- `m->m_pkthdr.len -= k`, where `m` is the first of some mbufs and one more. -/
def subLen (k : Int) (pre : List Mbuf) (m1 : Mbuf) : List Mbuf × Mbuf :=
  match pre with
  | [] => ([], { m1 with pkthdr := m1.pkthdr.map (· - k) })
  | m :: pre => ({ m with pkthdr := m.pkthdr.map (· - k) } :: pre, m1)

/-- The header is at the beginning of `m1`. -/
def removeStart (pre : List Mbuf) (m1 : Mbuf) (post : List Mbuf) (hlen : Nat) : Option (List Mbuf) :=
  match mAdj (m1 :: post) hlen with
  | none => none
  | some c => some (if m1.pkthdr.isSome then pre ++ c else onHeader (· - (hlen : Int)) (pre ++ c))

/-- It goes on to the end of `m1` or further. -/
def removeEnd (pre : List Mbuf) (m1 : Mbuf) (post : List Mbuf) (roff hlen : Nat) :
    Option (List Mbuf) :=
  let excess : Int := roff + hlen - m1.len
  match (if 0 < excess then mAdj post excess else some post) with
  | none => none
  | some post =>
    let (pre, m1) := if 0 < excess then subLen excess pre m1 else (pre, m1)
    -- `m1` is unlinked for the time being
    match mAdj [m1] (-(m1.len - roff)) with
    | some [m1] =>
      let (pre, m1) := if m1.pkthdr.isSome then (pre, m1) else subLen (m1.len - roff) pre m1
      some (pre ++ m1 :: post)
    | _ => none

/-- It is in the middle of `m1`. -/
def removeMiddle (Z : Sizes) (h : Heap) (pre : List Mbuf) (m1 : Mbuf) (post : List Mbuf)
    (roff hlen : Nat) : Option (List Mbuf × Heap) :=
  match h.put Z m1 (m1.data + roff)
      (h.bytes m1.store (m1.data + roff + hlen) (m1.len - (roff + hlen))) with
  | none => none
  | some h =>
    let (pre, m1) := subLen hlen pre { m1 with len := m1.len - hlen }
    some (pre ++ m1 :: post, h)

/-- Null is for `EINVAL`, when the packet is freed. -/
def removeEsp (Z : Sizes) (h : Heap) (c : List Mbuf) (skip hlen : Nat) :
    Option (Option (List Mbuf) × Heap) :=
  match mGetptr c skip with
  | none => some (none, mFreem h c)
  | some (pre, m1, post, roff) =>
    if roff = 0 then (removeStart pre m1 post hlen).map fun c => (some c, h)
    else if m1.len ≤ roff + hlen then (removeEnd pre m1 post roff hlen).map fun c => (some c, h)
    else (removeMiddle Z h pre m1 post roff hlen).map fun r => (some r.1, r.2)

/-! ## What it is for -/

/-- The packet without the bytes from `skip` on, and the length of what it holds. -/
def Removed (h : Heap) (c : List Mbuf) (skip hlen : Nat)
    (r : Option (Option (List Mbuf) × Heap)) : Prop :=
  ∃ c' h', r = some (some c', h') ∧
    h'.chain c' = (h.chain c).take skip ++ (h.chain c).drop (skip + hlen) ∧
    packetLen c' = some (total c' : Int)

/-- No mbuf sees other bytes when those behind the header are moved over it. -/
def Unseen (h : Heap) (c : List Mbuf) (m1 : Mbuf) (roff hlen : Nat) : Prop :=
  ∀ m ∈ c, m.store = m1.store → ∀ k, m.data ≤ k → k < m.data + m.len →
    m1.data + roff ≤ k → k + hlen < m1.data + m1.len →
    h.byte m1.store (k + hlen) = h.byte m1.store k

/-- The header is at the beginning of an mbuf without a packet header of its own, or in the
first; or it is in the first and goes on to its end; or it is in the middle of an mbuf,
where nobody looks on. -/
def Removable (h : Heap) (c : List Mbuf) (skip hlen : Nat) : Prop :=
  ∀ pre m1 post roff, mGetptr c skip = some (pre, m1, post, roff) →
    (roff = 0 → pre = [] ∨ m1.pkthdr = none ∨ hlen = 0) ∧
    (roff ≠ 0 → m1.len ≤ roff + hlen → pre = []) ∧
    (roff ≠ 0 → roff + hlen < m1.len → Unseen h (pre ++ post) m1 roff hlen)

/-! ## Trimming -/

variable {Z : Sizes} {h : Heap} {c pre post : List Mbuf} {m1 : Mbuf} {skip roff hlen : Nat}

/-- From a chain that has so many bytes, they are trimmed. -/
theorem mAdj_head {k : Nat} (hc : c ≠ []) (hk : k ≤ total c) :
    mAdj c k = some (onHeader (· - (k : Int)) (trimHead c k).1) := by
  obtain ⟨-, hleft, -⟩ := trimHead_spec (Heap.plain 0) c k
  rw [mAdj, if_neg hc, if_pos (Int.natCast_nonneg k), Int.toNat_natCast, hleft,
    Nat.sub_eq_zero_of_le hk]
  simp

/-- And from the end of an mbuf that stands alone. -/
theorem mAdj_last {m : Mbuf} {k : Nat} (hk0 : k ≠ 0) (hk : k ≤ m.len) (hfits : m.len < 2 ^ 31) :
    mAdj [m] (-(k : Int)) =
      some [{ m with len := m.len - k, pkthdr := m.pkthdr.map (· - (k : Int)) }] := by
  have hneg : ¬ (0 : Int) ≤ -(k : Int) := by omega
  have hi : i32 (- -(k : Int)) = k := by rw [Int.neg_neg, i32_eq (by omega) (by omega)]
  have hu : u32 (k : Int) = k := by
    have hlen := u32_neg (k := -(k : Int)) (by omega) (by omega)
    rw [hi] at hlen
    omega
  rw [mAdj, if_neg (List.cons_ne_nil _ _), if_neg hneg]
  simp only [hi, hu, cutLast, if_true, if_pos hk]
  rfl

theorem subLen_chain (h : Heap) (k : Int) (pre : List Mbuf) (m1 : Mbuf) (post : List Mbuf) :
    h.chain ((subLen k pre m1).1 ++ (subLen k pre m1).2 :: post) = h.chain (pre ++ m1 :: post) := by
  cases pre <;> rfl

theorem subLen_packetLen (k : Int) (pre : List Mbuf) (m1 : Mbuf) (post : List Mbuf) :
    packetLen ((subLen k pre m1).1 ++ (subLen k pre m1).2 :: post) =
      (packetLen (pre ++ m1 :: post)).map (· - k) := by
  cases pre <;> rfl

/-! ## The three ways -/

/-- The place of the header in the chain. -/
structure HeaderAt (c : List Mbuf) (skip hlen : Nat) (pre : List Mbuf) (m1 : Mbuf)
    (post : List Mbuf) (roff : Nat) : Prop where
  cut : c = pre ++ m1 :: post
  at' : skip = total pre + roff
  inside : roff < m1.len
  rest : roff + hlen < m1.len + total post
  packet : packetLen c = some (total c : Int)
  fits : total c < 2 ^ 31

namespace HeaderAt

/-- What is to be left. -/
theorem bytes (hf : HeaderAt c skip hlen pre m1 post roff) (h : Heap) :
    (h.chain c).take skip ++ (h.chain c).drop (skip + hlen) =
      h.chain pre ++ ((h.data m1).take roff ++ (h.chain (m1 :: post)).drop (roff + hlen)) := by
  rw [hf.cut, hf.at', Nat.add_assoc, chain_take_append, chain_drop_append,
    chain_take_in _ _ _ (Nat.le_of_lt hf.inside), List.append_assoc]

theorem total_eq (hf : HeaderAt c skip hlen pre m1 post roff) :
    total c = total pre + (m1.len + total post) := by
  rw [hf.cut, total_append, total_cons]

/-- With the right bytes, only the packet length is open. -/
theorem removed_iff (hf : HeaderAt c skip hlen pre m1 post roff) {c' : List Mbuf} {h' : Heap}
    (hbytes : h'.chain c' = (h.chain c).take skip ++ (h.chain c).drop (skip + hlen)) :
    Removed h c skip hlen (some (some c', h')) ↔ packetLen c' = some (total c - hlen : Int) := by
  have hcount := congrArg List.length hbytes
  have htotal := hf.total_eq
  have hat := hf.at'
  have hrest := hf.rest
  rw [List.length_append, List.length_take, List.length_drop, chain_length, chain_length] at hcount
  have hint : (total c' : Int) = total c - hlen := by omega
  constructor
  · rintro ⟨c'', h'', heq, -, hpkt⟩
    obtain ⟨hc, -⟩ := Prod.mk.inj (Option.some.inj heq)
    rw [Option.some.inj hc, hpkt, ← Option.some.inj hc, hint]
  · intro hpkt
    exact ⟨c', h', rfl, hbytes, by rw [hpkt, hint]⟩

theorem start_iff (hf : HeaderAt c skip hlen pre m1 post roff) (hzero : roff = 0) :
    Removed h c skip hlen ((removeStart pre m1 post hlen).map fun c => (some c, h)) ↔
      pre = [] ∨ m1.pkthdr = none ∨ hlen = 0 := by
  have hrest := hf.rest
  obtain ⟨hbytes, -, -, hhdr⟩ := trimHead_spec h (m1 :: post) hlen
  have hadj := mAdj_head (List.cons_ne_nil m1 post) (by rw [total_cons]; omega : hlen ≤ _)
  have hpacket := hf.packet
  have hbytes' : ∀ c', h.chain c' = h.chain (pre ++ (trimHead (m1 :: post) hlen).1) →
      h.chain c' = (h.chain c).take skip ++ (h.chain c).drop (skip + hlen) := by
    intro c' hc'
    rw [hc', hf.bytes, hzero, List.take_zero, List.nil_append, Nat.zero_add, chain_append, hbytes]
  rw [hf.cut] at hpacket
  simp only [removeStart, hadj]
  cases hflag : m1.pkthdr with
  | none =>
    refine iff_of_true ?_ (.inr (.inl rfl))
    rw [Option.isSome_none, if_neg Bool.false_ne_true, Option.map_some, hf.removed_iff]
    · cases pre with
      | nil =>
        rw [List.nil_append, packetLen, List.head?_cons, Option.bind_some, hflag] at hpacket
        cases hpacket
      | cons m pre =>
        have hm : m.pkthdr = some (total ((m :: pre) ++ m1 :: post) : Int) := hpacket
        rw [onHeader_packetLen, List.cons_append, packetLen, List.head?_cons, Option.bind_some, hm,
          ← hf.cut]
        rfl
    · refine hbytes' _ ?_
      rw [onHeader_chain, chain_append, onHeader_chain, chain_append]
  | some l =>
    rw [Option.isSome_some, if_pos rfl, Option.map_some, hf.removed_iff]
    · cases pre with
      | nil =>
        refine iff_of_true ?_ (.inl rfl)
        rw [List.nil_append] at hpacket ⊢
        rw [onHeader_packetLen, hhdr, hpacket, ← List.nil_append (m1 :: post), ← hf.cut]
        rfl
      | cons m pre =>
        have hm : m.pkthdr = some (total ((m :: pre) ++ m1 :: post) : Int) := hpacket
        rw [List.cons_append, packetLen, List.head?_cons, Option.bind_some, hm, ← hf.cut,
          Option.some.injEq]
        constructor
        · intro heq
          exact .inr (.inr (by omega))
        · rintro (hnil | hnone | hzero)
          · cases hnil
          · cases hnone
          · rw [hzero, Int.natCast_zero, Int.sub_zero]
    · refine hbytes' _ ?_
      rw [chain_append, onHeader_chain, chain_append]

/-- The mbufs behind `m1` without the first bytes. -/
theorem behind (hf : HeaderAt c skip hlen pre m1 post roff) {excess : Nat}
    (hover : roff + hlen = m1.len + excess) (h : Heap) :
    ∃ post', (if 0 < (excess : Int) then mAdj post excess else some post) = some post' ∧
      h.chain post' = (h.chain post).drop excess := by
  have hrest := hf.rest
  by_cases hpos : 0 < (excess : Int)
  · have hne : post ≠ [] := by
      rintro rfl
      rw [total_nil] at hrest
      omega
    obtain ⟨hdrop, -⟩ := trimHead_spec h post excess
    rw [if_pos hpos, mAdj_head hne (by omega)]
    exact ⟨_, rfl, by rw [onHeader_chain, hdrop]⟩
  · have hzero : excess = 0 := by omega
    rw [if_neg hpos, hzero]
    exact ⟨post, rfl, rfl⟩

/-- What is left when the header goes on to the end of `m1`: the length lacks what was cut
off there, unless that is the first mbuf. -/
theorem end_eq (hf : HeaderAt c skip hlen pre m1 post roff)
    (hend : m1.len ≤ roff + hlen) (h : Heap) :
    ∃ c', removeEnd pre m1 post roff hlen = some c' ∧
      h.chain c' = (h.chain c).take skip ++ (h.chain c).drop (skip + hlen) ∧
      packetLen c' = some (if pre = [] then (total c - hlen : Int)
        else (total c - (roff + hlen - m1.len) : Int)) := by
  have hin := hf.inside
  have hfits := hf.fits
  have htotal := hf.total_eq
  have hpacket := hf.packet
  obtain ⟨excess, hover⟩ : ∃ excess : Nat, roff + hlen = m1.len + excess := Nat.exists_eq_add_of_le hend
  have hcast : (roff + hlen - m1.len : Int) = excess := by omega
  obtain ⟨post', hpost, hbytes⟩ := hf.behind hover h
  have hcut : (-(m1.len - roff) : Int) = -((m1.len - roff : Nat) : Int) := by omega
  have hleft : m1.len - (m1.len - roff) = roff := by omega
  have hadj : ∀ p, mAdj [{ m1 with pkthdr := p }] (-((m1.len - roff : Nat) : Int)) =
      some [{ m1 with len := roff, pkthdr := p.map (· - ((m1.len - roff : Nat) : Int)) }] := by
    intro p
    have hlast := mAdj_last (m := { m1 with pkthdr := p }) (k := m1.len - roff) (by omega)
      (Nat.sub_le _ _) (show m1.len < 2 ^ 31 by omega)
    rwa [hleft] at hlast
  have hall : h.chain pre ++ ((h.data m1).take roff ++ h.chain post') =
      (h.chain c).take skip ++ (h.chain c).drop (skip + hlen) := by
    rw [hf.bytes, hbytes, chain_drop_past _ _ _ hend, hover, Nat.add_sub_cancel_left]
  rw [← hall, ← data_take h (Nat.le_of_lt hin)]
  simp only [removeEnd, hcast, hpost]
  rw [hf.cut] at hpacket
  cases pre with
  | nil =>
    have hm : m1.pkthdr = some (total ([] ++ m1 :: post) : Int) := hpacket
    rw [← hf.cut] at hm
    have hsub : (if 0 < (excess : Int) then subLen excess [] m1 else ([], m1)) =
        ([], { m1 with pkthdr := some (total c - excess : Int) }) := by
      split
      · rw [subLen, hm]
        rfl
      · have hzero : (excess : Int) = 0 := by omega
        rw [hzero, Int.sub_zero, ← hm]
    simp only [hsub, hcut, hadj, Option.map_some, Option.isSome_some, if_true]
    refine ⟨_, rfl, rfl, congrArg some ?_⟩
    omega
  | cons m pre =>
    have hm : m.pkthdr = some (total ((m :: pre) ++ m1 :: post) : Int) := hpacket
    rw [← hf.cut] at hm
    have hsub : (if 0 < (excess : Int) then subLen excess (m :: pre) m1 else (m :: pre, m1)) =
        ({ m with pkthdr := some (total c - excess : Int) } :: pre, m1) := by
      split
      · rw [subLen, hm]
        rfl
      · have hzero : (excess : Int) = 0 := by omega
        rw [hzero, Int.sub_zero, ← hm]
    simp only [hsub, hcut, hadj m1.pkthdr]
    split
    · refine ⟨_, rfl, by rw [chain_append]; rfl, ?_⟩
      rfl
    · -- `m_len` is `roff` by now
      refine ⟨_, rfl, by rw [subLen_chain, chain_append]; rfl, ?_⟩
      simp [subLen, packetLen]

theorem end_iff (hf : HeaderAt c skip hlen pre m1 post roff)
    (hend : m1.len ≤ roff + hlen) :
    Removed h c skip hlen ((removeEnd pre m1 post roff hlen).map fun c => (some c, h)) ↔
      pre = [] := by
  have hin := hf.inside
  obtain ⟨c', hres, hbytes, hpkt⟩ := hf.end_eq hend h
  rw [hres, Option.map_some, hf.removed_iff hbytes, hpkt, Option.some.injEq]
  split
  · exact iff_of_true rfl ‹_›
  · exact iff_of_false (by omega) ‹_›

theorem middle_iff (hf : HeaderAt c skip hlen pre m1 post roff)
    (hmid : roff + hlen < m1.len) (hm : m1.Inside Z) :
    Removed h c skip hlen ((removeMiddle Z h pre m1 post roff hlen).map fun r => (some r.1, r.2)) ↔
      Unseen h (pre ++ post) m1 roff hlen := by
  have hcap := hm.2
  obtain ⟨h', hput, hmoved, hframe⟩ := put_bytes h m1 m1.store (m1.data + roff)
    (m1.data + roff + hlen) (n := m1.len - (roff + hlen)) (by omega : _ ≤ m1.cap Z)
  -- what `m1` has afterwards
  have hdata : h'.data { m1 with len := m1.len - hlen } =
      (h.data m1).take roff ++ (h.data m1).drop (roff + hlen) := by
    have hsplit : m1.len - hlen = roff + (m1.len - (roff + hlen)) := by omega
    show h'.bytes m1.store m1.data (m1.len - hlen) = _
    rw [hsplit, bytes_add, hmoved, hframe.before le_rfl, Heap.data,
      take_bytes _ _ _ (by omega), drop_bytes _ _ _ (Nat.le_of_lt hmid), Nat.add_assoc]
  have hbyte : ∀ k, m1.data + roff ≤ k → k + hlen < m1.data + m1.len →
      h'.byte m1.store k = h.byte m1.store (k + hlen) := by
    intro k hk hk'
    obtain ⟨i, rfl⟩ := Nat.exists_eq_add_of_le hk
    rw [List.map_inj_left.mp hmoved i (List.mem_range.mpr (by omega)), Nat.add_right_comm]
  have hseen : Unseen h (pre ++ post) m1 roff hlen ↔ ∀ m ∈ pre ++ post, h'.data m = h.data m := by
    refine forall₂_congr fun m _ => ?_
    rw [data_eq_iff]
    by_cases hstore : m.store = m1.store
    · rw [hstore]
      refine ⟨fun hall k hk hk' => ?_, fun hall _ k hk hk' h1 h2 => ?_⟩
      · by_cases hin : m1.data + roff ≤ k ∧ k + hlen < m1.data + m1.len
        · rw [hbyte k hin.1 hin.2, hall rfl k hk hk' hin.1 hin.2]
        · exact hframe.outside k (by omega)
      · rw [← hbyte k h1 h2, hall k hk hk']
    · exact iff_of_true (fun heq => absurd heq hstore) fun k _ _ => by rw [hframe.other _ hstore]
  rw [hseen]
  have hres : (removeMiddle Z h pre m1 post roff hlen).map (fun r => (some r.1, r.2)) =
      some (some ((subLen hlen pre { m1 with len := m1.len - hlen }).1 ++
        (subLen hlen pre { m1 with len := m1.len - hlen }).2 :: post), h') := by
    simp only [removeMiddle, hput, Option.map_some]
  have hchain : h'.chain ((subLen hlen pre { m1 with len := m1.len - hlen }).1 ++
      (subLen hlen pre { m1 with len := m1.len - hlen }).2 :: post) =
        h'.chain pre ++ ((h.data m1).take roff ++ ((h.data m1).drop (roff + hlen) ++ h'.chain post)) := by
    rw [subLen_chain, chain_append, chain_cons, hdata, List.append_assoc]
  have hwant : (h.chain c).take skip ++ (h.chain c).drop (skip + hlen) =
      h.chain pre ++ ((h.data m1).take roff ++ ((h.data m1).drop (roff + hlen) ++ h.chain post)) := by
    rw [hf.bytes, chain_drop_in _ _ _ (Nat.le_of_lt hmid)]
  rw [hres]
  constructor
  · rintro ⟨c', h'', heq, hbytes, -⟩
    obtain ⟨hc', rfl⟩ := Prod.mk.inj (Option.some.inj heq)
    rw [← Option.some.inj hc', hchain, hwant] at hbytes
    obtain ⟨hpre, hrest⟩ := List.append_inj hbytes (by rw [chain_length, chain_length])
    have hpost := List.append_cancel_left (List.append_cancel_left hrest)
    exact List.forall_mem_append.mpr ⟨data_of_chain hpre, data_of_chain hpost⟩
  · intro hall
    obtain ⟨hpre, hpost⟩ := List.forall_mem_append.mp hall
    rw [hf.removed_iff (by rw [hchain, hwant, chain_congr hpre, chain_congr hpost]), subLen_packetLen]
    have hpacket := hf.packet
    rw [hf.cut] at hpacket
    have hsame : packetLen (pre ++ { m1 with len := m1.len - hlen } :: post) =
        packetLen (pre ++ m1 :: post) := by cases pre <;> rfl
    rw [hsame, hpacket, Option.map_some, hf.cut]

end HeaderAt

/-- For every packet, however it is divided: the ESP header is taken out, and the length of
the packet is that of its mbufs, exactly if the header begins where an mbuf does or in the
first mbuf, or is in the middle of an mbuf where no other sees what is moved. -/
theorem esp_header_removed_iff (Z : Sizes) (h : Heap) (c : List Mbuf) (skip hlen : Nat)
    (hc : Chain Z h c) (hpkt : (packetLen c).isSome = true) (hlen' : skip + hlen < total c) :
    Removed h c skip hlen (removeEsp Z h c skip hlen) ↔ Removable h c skip hlen := by
  obtain ⟨l, hl⟩ := Option.isSome_iff_exists.mp hpkt
  have hskip : skip ≤ total c := by omega
  obtain ⟨⟨pre, m1, post, roff⟩, hptr⟩ := Option.isSome_iff_exists.mp (mGetptr_isSome hc.ne hskip)
  obtain ⟨hcut, hat, hin⟩ := mGetptr_spec hptr
  have htotal : total c = total pre + (m1.len + total post) := by
    rw [hcut, total_append, total_cons]
  have hin' : roff < m1.len := by
    rcases hin with hlt | ⟨heq, hnil⟩
    · exact hlt
    · rw [hnil, total_nil] at htotal
      omega
  have hf : HeaderAt c skip hlen pre m1 post roff :=
    ⟨hcut, hat, hin', by omega, by rw [hl, hc.pkthdr l hl], hc.fits⟩
  have hcond : Removable h c skip hlen ↔
      (roff = 0 → pre = [] ∨ m1.pkthdr = none ∨ hlen = 0) ∧
      (roff ≠ 0 → m1.len ≤ roff + hlen → pre = []) ∧
      (roff ≠ 0 → roff + hlen < m1.len → Unseen h (pre ++ post) m1 roff hlen) := by
    refine ⟨fun hr => hr pre m1 post roff hptr, fun hr pre' m1' post' roff' hptr' => ?_⟩
    obtain ⟨rfl, rfl, rfl, rfl⟩ : pre = pre' ∧ m1 = m1' ∧ post = post' ∧ roff = roff' := by
      simpa using hptr.symm.trans hptr'
    exact hr
  simp only [hcond, removeEsp, hptr]
  by_cases hzero : roff = 0
  · rw [if_pos hzero, hf.start_iff hzero]
    exact ⟨fun hr => ⟨fun _ => hr, fun hne => absurd hzero hne, fun hne => absurd hzero hne⟩,
      fun hr => hr.1 hzero⟩
  · rw [if_neg hzero]
    by_cases hend : m1.len ≤ roff + hlen
    · rw [if_pos hend, hf.end_iff hend]
      exact ⟨fun hr => ⟨fun h0 => absurd h0 hzero, fun _ _ => hr,
        fun _ hlt => absurd hend (Nat.not_le.mpr hlt)⟩, fun hr => hr.2.1 hzero hend⟩
    · have hmid : roff + hlen < m1.len := Nat.lt_of_not_le hend
      have hm1 : m1 ∈ c := by
        rw [hcut]
        exact List.mem_append_right _ List.mem_cons_self
      rw [if_neg hend, hf.middle_iff hmid (hc.inside m1 hm1)]
      exact ⟨fun hr => ⟨fun h0 => absurd h0 hzero, fun _ hle => absurd hle hend, fun _ _ => hr⟩,
        fun hr => hr.2.2 hzero hmid⟩

/-- A packet in an mbuf of four bytes, one of ten and one of six. -/
def threeParts : List Mbuf :=
  [⟨0, 64, 4, 1, none, some 20⟩, ⟨1, 0, 10, 1, none, none⟩, ⟨2, 0, 6, 1, none, none⟩]

theorem threeParts_chain : Chain Sizes.amd64 (Heap.plain 3) threeParts where
  ne := by simp [threeParts]
  old := by simp [threeParts, Mbuf.Old, Heap.plain]
  inside := by simp [threeParts, Mbuf.Inside, Mbuf.base, Mbuf.cap, Sizes.amd64]
  nodup := by simp [threeParts]
  refs := by simp [threeParts, refsIn]
  pkthdr := by simp [threeParts, packetLen]
  fits := by simp [threeParts]

theorem esp_header_of_parts : Removed (Heap.plain 3) threeParts 4 12
    (removeEsp Sizes.amd64 (Heap.plain 3) threeParts 4 12) ↔ Removable (Heap.plain 3) threeParts 4 12 :=
  esp_header_removed_iff Sizes.amd64 (Heap.plain 3) threeParts 4 12 threeParts_chain
    (by simp [threeParts, packetLen]) (by simp [threeParts])

/-- The header begins in the second mbuf, and its last two bytes are in the third: the eight
bytes of the second stay in the packet length. -/
theorem esp_header_miscounted :
    (removeEsp Sizes.amd64 (Heap.plain 3) threeParts 6 10).map
        (fun r => r.1.map fun c => (packetLen c, total c)) = some (some (some 18, 10)) ∧
      ¬ Removed (Heap.plain 3) threeParts 6 10
        (removeEsp Sizes.amd64 (Heap.plain 3) threeParts 6 10) := by
  have hres : (removeEsp Sizes.amd64 (Heap.plain 3) threeParts 6 10).map
      (fun r => r.1.map fun c => (packetLen c, total c)) = some (some (some 18, 10)) := by decide
  refine ⟨hres, ?_⟩
  rintro ⟨c', h', heq, -, hpkt⟩
  rw [heq, Option.map_some, Option.map_some] at hres
  obtain ⟨hlen, htotal⟩ := Prod.mk.inj (Option.some.inj (Option.some.inj hres))
  rw [hlen, htotal] at hpkt
  cases hpkt

end Obsd.MbufChain
