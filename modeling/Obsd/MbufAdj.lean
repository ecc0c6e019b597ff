import Obsd.Mbuf

/-!
# Trimming an mbuf chain

`m_adj` (`uipc_mbuf.c`) takes bytes from the head of a chain, or from its tail
when the length is negative. No mbuf leaves the chain, and what is left of
each is in its place (`Trims`); so the bytes of the whole are cut, and the
length in the packet header with them.
-/

namespace Obsd.MbufChain

/-- A value kept in an `int`. -/
def i32 (x : Int) : Int := Int.bmod x (2 ^ 32)

/-- A value kept in an `u_int`. -/
def u32 (x : Int) : Nat := (x % 2 ^ 32).toNat

/-- A change of `m_pkthdr.len` of the first mbuf, if it has one. -/
def onHeader (f : Int → Int) : List Mbuf → List Mbuf
  | [] => []
  | m :: next => { m with pkthdr := m.pkthdr.map f } :: next

/-- The loop that trims from the head, and the length that is then left to trim. -/
def trimHead : List Mbuf → Nat → List Mbuf × Nat
  | [], len => ([], len)
  | m :: next, len =>
    if len = 0 then (m :: next, 0)
    else if m.len ≤ len then
      ({ m with len := 0 } :: (trimHead next (len - m.len)).1, (trimHead next (len - m.len)).2)
    else ({ m with len := m.len - len, data := m.data + len } :: next, 0)

/-- The last mbuf of the chain without its last `len` bytes, if there are so many. -/
def cutLast : List Mbuf → Nat → Option (List Mbuf)
  | [], _ => none
  | m :: next, len =>
    if next = [] then if len ≤ m.len then some [{ m with len := m.len - len }] else none
    else (cutLast next len).map (m :: ·)

/-- The mbuf with the last of `count` bytes is cut there, and those after it are emptied. -/
def keepTail : List Mbuf → Nat → Option (List Mbuf)
  | [], _ => none
  | m :: next, count =>
    if count ≤ m.len then some ({ m with len := count } :: next.map fun m => { m with len := 0 })
    else (keepTail next (count - m.len)).map (m :: ·)

def mAdj (mp : List Mbuf) (reqLen : Int) : Option (List Mbuf) :=
  if mp = [] then some []
  else if 0 ≤ reqLen then
    let len := (trimHead mp reqLen.toNat).2
    some (onHeader (fun l => l - (reqLen - len)) (trimHead mp reqLen.toNat).1)
  else
    let len := i32 (-reqLen)
    match cutLast mp (u32 len) with
    | some mp => some (onHeader (fun l => l - len) mp)
    | none =>
      let count := i32 (i32 (total mp) - len)
      let count := if count < 0 then 0 else count
      keepTail (onHeader (fun _ => count) mp) count.toNat

/-! ## What is left of an mbuf -/

/-- `m'` is `m` with some of its data. -/
structure Trims (m m' : Mbuf) : Prop where
  addr : m'.addr = m.addr
  ext : m'.ext = m.ext
  type : m'.type = m.type
  header : m'.pkthdr.isSome = m.pkthdr.isSome
  start : m.data ≤ m'.data
  stop : m'.data + m'.len ≤ m.data + m.len

theorem Trims.refl (m : Mbuf) : Trims m m := ⟨rfl, rfl, rfl, rfl, le_rfl, le_rfl⟩

theorem Trims.inside {Z : Sizes} {m m' : Mbuf} (ht : Trims m m') (hm : m.Inside Z) :
    m'.Inside Z := by
  have hbase : m'.base Z = m.base Z := by rw [Mbuf.base, Mbuf.base, ht.ext, ht.header]
  have hcap : m'.cap Z = m.cap Z := by rw [Mbuf.cap, Mbuf.cap, ht.ext]
  exact ⟨hbase ▸ Nat.le_trans hm.1 ht.start, hcap ▸ Nat.le_trans ht.stop hm.2⟩

theorem trims_refl (c : List Mbuf) : List.Forall₂ Trims c c :=
  List.forall₂_same.mpr fun m _ => Trims.refl m

theorem trims_all {c c' : List Mbuf} {P : Mbuf → Prop} (ht : List.Forall₂ Trims c c')
    (hP : ∀ m m', Trims m m' → P m → P m') (hc : ∀ m ∈ c, P m) : ∀ m ∈ c', P m := by
  induction ht with
  | nil => exact hc
  | cons hm _ ih =>
    obtain ⟨hhead, htail⟩ := List.forall_mem_cons.mp hc
    exact List.forall_mem_cons.mpr ⟨hP _ _ hm hhead, ih htail⟩

section Header

variable {f : Int → Int} {c c' : List Mbuf}

@[simp] theorem onHeader_chain (h : Heap) (f : Int → Int) (c : List Mbuf) :
    h.chain (onHeader f c) = h.chain c := by
  cases c <;> rfl

@[simp] theorem onHeader_total (f : Int → Int) (c : List Mbuf) :
    total (onHeader f c) = total c := by
  cases c <;> rfl

theorem onHeader_ne (hc : c ≠ []) : onHeader f c ≠ [] := by
  cases c with
  | nil => exact absurd rfl hc
  | cons m c => simp [onHeader]

theorem onHeader_trims (ht : List.Forall₂ Trims c c') : List.Forall₂ Trims c (onHeader f c') := by
  cases ht with
  | nil => exact .nil
  | cons hm hrest =>
    exact .cons ⟨hm.addr, hm.ext, hm.type, Option.isSome_map.trans hm.header, hm.start, hm.stop⟩
      hrest

theorem trims_of_onHeader (ht : List.Forall₂ Trims (onHeader f c) c') :
    List.Forall₂ Trims c c' := by
  cases c with
  | nil => exact ht
  | cons m c =>
    cases ht with
    | cons hm hrest =>
      exact .cons ⟨hm.addr, hm.ext, hm.type, hm.header.trans Option.isSome_map, hm.start, hm.stop⟩
        hrest

theorem trims_packetLen (ht : List.Forall₂ Trims c c') :
    (packetLen c').isSome = (packetLen c).isSome := by
  cases ht with
  | nil => rfl
  | cons hm _ => exact hm.header

@[simp] theorem onHeader_packetLen (f : Int → Int) (c : List Mbuf) :
    packetLen (onHeader f c) = (packetLen c).map f := by
  cases c <;> rfl

end Header

/-! ## The loops -/

section Loops

variable {c c' : List Mbuf} {len count : Nat}

theorem trimHead_spec (h : Heap) (c : List Mbuf) (len : Nat) :
    h.chain (trimHead c len).1 = (h.chain c).drop len ∧ (trimHead c len).2 = len - total c ∧
      List.Forall₂ Trims c (trimHead c len).1 ∧ packetLen (trimHead c len).1 = packetLen c := by
  induction c generalizing len with
  | nil => exact ⟨by simp [trimHead], by simp [trimHead], .nil, rfl⟩
  | cons m c ih =>
    rw [trimHead, total_cons]
    by_cases hzero : len = 0
    · rw [if_pos hzero, hzero]
      exact ⟨rfl, (Nat.zero_sub _).symm, trims_refl _, rfl⟩
    · rw [if_neg hzero]
      by_cases hle : m.len ≤ len
      · rw [if_pos hle]
        obtain ⟨hbytes, hleft, htrims, -⟩ := ih (len - m.len)
        refine ⟨?_, ?_, .cons ⟨rfl, rfl, rfl, rfl, le_rfl, ?_⟩ htrims, rfl⟩
        · rw [chain_drop_past _ _ _ hle, chain_cons, hbytes]
          rfl
        · rw [hleft, Nat.sub_sub]
        · exact Nat.add_le_add_left (Nat.zero_le _) _
      · have hlt : len ≤ m.len := Nat.le_of_not_le hle
        rw [if_neg hle]
        refine ⟨?_, ?_, .cons ⟨rfl, rfl, rfl, rfl, Nat.le_add_right _ _, ?_⟩ (trims_refl c), rfl⟩
        · rw [chain_drop_in _ _ _ hlt, chain_cons, data_drop h hlt]
        · exact (Nat.sub_eq_zero_of_le (Nat.le_trans hlt (Nat.le_add_right _ _))).symm
        · show m.data + len + (m.len - len) ≤ m.data + m.len
          omega

theorem cutLast_spec (h : Heap) (hcut : cutLast c len = some c') :
    len ≤ total c ∧ h.chain c' = (h.chain c).take (total c - len) ∧ List.Forall₂ Trims c c' ∧
      packetLen c' = packetLen c := by
  induction c generalizing c' with
  | nil => exact absurd hcut (by simp [cutLast])
  | cons m c ih =>
    rw [cutLast] at hcut
    by_cases hnil : c = []
    · subst hnil
      rw [if_pos rfl] at hcut
      by_cases hle : len ≤ m.len
      · rw [if_pos hle, Option.some.injEq] at hcut
        subst hcut
        have hsub : m.len - len ≤ m.len := Nat.sub_le _ _
        refine ⟨hle, ?_, .cons ⟨rfl, rfl, rfl, rfl, le_rfl, Nat.add_le_add_left hsub _⟩ .nil,
          rfl⟩
        rw [total_cons, total_nil, Nat.add_zero, chain_take_in _ _ _ hsub, chain_cons,
          data_take h hsub, chain_nil, List.append_nil]
      · rw [if_neg hle] at hcut
        exact absurd hcut (by simp)
    · rw [if_neg hnil] at hcut
      obtain ⟨c₁, hc₁, rfl⟩ := Option.map_eq_some_iff.mp hcut
      obtain ⟨hle, hbytes, htrims, -⟩ := ih hc₁
      rw [total_cons]
      refine ⟨by omega, ?_, .cons (Trims.refl m) htrims, rfl⟩
      rw [chain_take_past _ _ _ (by omega), chain_cons, hbytes]
      congr 2
      omega

/-- The mbufs that are emptied. -/
theorem empty_chain (h : Heap) (c : List Mbuf) :
    h.chain (c.map fun m => { m with len := 0 }) = [] := by
  induction c with
  | nil => rfl
  | cons m c ih =>
    rw [List.map_cons, chain_cons, ih]
    rfl

theorem empty_trims (c : List Mbuf) :
    List.Forall₂ Trims c (c.map fun m => { m with len := 0 }) := by
  induction c with
  | nil => exact .nil
  | cons m c ih =>
    exact .cons ⟨rfl, rfl, rfl, rfl, le_rfl, Nat.add_le_add_left (Nat.zero_le _) _⟩ ih

theorem keepTail_spec (h : Heap) (hc : c ≠ []) (hcount : count ≤ total c) :
    ∃ c', keepTail c count = some c' ∧ h.chain c' = (h.chain c).take count ∧
      List.Forall₂ Trims c c' ∧ packetLen c' = packetLen c := by
  induction c generalizing count with
  | nil => exact absurd rfl hc
  | cons m c ih =>
    rw [keepTail]
    rw [total_cons] at hcount
    by_cases hle : count ≤ m.len
    · rw [if_pos hle]
      refine ⟨_, rfl, ?_, .cons ⟨rfl, rfl, rfl, rfl, le_rfl, Nat.add_le_add_left hle _⟩
        (empty_trims c), rfl⟩
      rw [chain_cons, empty_chain, List.append_nil, data_take h hle, chain_take_in _ _ _ hle]
    · rw [if_neg hle]
      have hne : c ≠ [] := by
        rintro rfl
        rw [total_nil] at hcount
        omega
      have hless : count - m.len ≤ total c := by omega
      obtain ⟨c', hkeep, hbytes, htrims, -⟩ := ih hne hless
      refine ⟨m :: c', by rw [hkeep]; rfl, ?_, .cons (Trims.refl m) htrims, rfl⟩
      rw [chain_cons, hbytes, chain_take_past _ _ _ (Nat.le_of_not_le hle)]

end Loops

/-! ## The lengths -/

theorem i32_eq {x : Int} (hlo : -2 ^ 31 ≤ x) (hhi : x < 2 ^ 31) : i32 x = x := by
  unfold i32
  rw [Int.bmod_def]
  split <;> omega

/-- The length to trim, also of `INT_MIN`, which has no negative. -/
theorem u32_neg {k : Int} (hlo : -2 ^ 31 ≤ k) (hk : k < 0) : u32 (i32 (-k)) = k.natAbs := by
  unfold u32 i32
  rw [Int.bmod_def]
  split <;> omega

/-- And the length that is to stay. -/
theorem count_eq {n : Nat} {k : Int} (hn : n < 2 ^ 31) (hlo : -2 ^ 31 ≤ k) (hk : k < 0) :
    (if i32 (i32 n - i32 (-k)) < 0 then 0 else i32 (i32 n - i32 (-k))) =
      ((n - k.natAbs : Nat) : Int) := by
  rw [i32_eq (x := n) (by omega) (by omega)]
  rcases Int.lt_or_eq_of_le hlo with hlo | rfl
  · rw [i32_eq (x := -k) (by omega) (by omega), i32_eq (by omega) (by omega)]
    split <;> omega
  · have hmin : i32 (- -2 ^ 31) = -2 ^ 31 := by decide
    rw [hmin]
    unfold i32
    rw [Int.bmod_def]
    split <;> split <;> omega

/-! ## The whole trim -/

/-- What `m_adj` is to do: take bytes from the head or, with a negative length, from the
tail, as many as there are, and count them in the packet length. -/
structure Adjusts (Z : Sizes) (h : Heap) (c : List Mbuf) (k : Int) (c' : List Mbuf) : Prop where
  bytes : h.chain c' =
    if 0 ≤ k then (h.chain c).drop (min k.natAbs (total c))
    else (h.chain c).take (total c - min k.natAbs (total c))
  pkthdr : ∀ l, packetLen c' = some l → l = total c'
  trims : List.Forall₂ Trims c c'
  inside : ∀ m ∈ c', m.Inside Z

theorem min_drop {bs : List UInt8} {n k : Nat} (hn : bs.length = n) :
    bs.drop (min k n) = bs.drop k := by
  rcases Nat.le_total k n with hle | hle
  · rw [Nat.min_eq_left hle]
  · rw [Nat.min_eq_right hle, List.drop_eq_nil_of_le (Nat.le_of_eq hn),
      List.drop_eq_nil_of_le (hn ▸ hle)]

/-- The bytes `m_adj` leaves, whatever is in the packet header. -/
theorem mAdj_spec (h : Heap) {c : List Mbuf} {k : Int} (hc : c ≠ []) (hfits : total c < 2 ^ 31)
    (hlo : -2 ^ 31 ≤ k) (hhi : k < 2 ^ 31) :
    ∃ c', mAdj c k = some c' ∧ List.Forall₂ Trims c c' ∧
      h.chain c' = (if 0 ≤ k then (h.chain c).drop k.natAbs
        else (h.chain c).take (total c - k.natAbs)) ∧
      ∀ l, packetLen c' = some l → packetLen c = some (total c : Int) → l = total c' := by
  have htotal : ∀ c', (h.chain c').length = total c' := chain_length h
  unfold mAdj
  rw [if_neg hc]
  by_cases hk : 0 ≤ k
  · rw [if_pos hk, if_pos hk]
    obtain ⟨hbytes, hleft, htrims, hhdr⟩ := trimHead_spec h c k.natAbs
    have habs : k.toNat = k.natAbs := by omega
    rw [habs]
    refine ⟨_, rfl, onHeader_trims htrims, by rw [onHeader_chain, hbytes], fun l hl hpkt => ?_⟩
    have hlen := congrArg List.length hbytes
    rw [List.length_drop, htotal, htotal] at hlen
    rw [onHeader_packetLen, hhdr, hpkt, hleft, Option.map_some, Option.some.injEq] at hl
    rw [← hl, onHeader_total, hlen]
    omega
  · rw [if_neg hk, if_neg hk]
    have hlen := u32_neg hlo (Int.lt_of_not_ge hk)
    simp only [hlen]
    rcases hcut : cutLast c k.natAbs with _ | c₁
    · have hcount := count_eq hfits hlo (Int.lt_of_not_ge hk)
      simp only [hcount, Int.toNat_natCast]
      have hless : total c - k.natAbs ≤
          total (onHeader (fun _ => ((total c - k.natAbs : Nat) : Int)) c) := by
        rw [onHeader_total]
        exact Nat.sub_le _ _
      obtain ⟨c', hkeep, hbytes, htrims, hhdr⟩ := keepTail_spec h (onHeader_ne hc) hless
      refine ⟨c', hkeep, trims_of_onHeader htrims, by rw [hbytes, onHeader_chain], fun l hl _ => ?_⟩
      have hlen' := congrArg List.length hbytes
      rw [htotal, List.length_take, htotal, onHeader_total] at hlen'
      rw [hhdr, onHeader_packetLen] at hl
      obtain ⟨_, -, rfl⟩ := Option.map_eq_some_iff.mp hl
      rw [hlen', Nat.min_eq_left (Nat.sub_le _ _)]
    · obtain ⟨hle, hbytes, htrims, hhdr⟩ := cutLast_spec h hcut
      refine ⟨_, rfl, onHeader_trims htrims, by rw [onHeader_chain, hbytes], fun l hl hpkt => ?_⟩
      have hlen' := congrArg List.length hbytes
      rw [htotal, List.length_take, htotal, Nat.min_eq_left (Nat.sub_le _ _)] at hlen'
      rw [onHeader_packetLen, hhdr, hpkt, Option.map_some, Option.some.injEq] at hl
      rw [← hl, onHeader_total, hlen', i32_eq (by omega) (by omega)]
      omega

theorem mAdj_adjusts {Z : Sizes} {h : Heap} {c : List Mbuf} {k : Int} (hc : Chain Z h c)
    (hlo : -2 ^ 31 ≤ k) (hhi : k < 2 ^ 31) :
    ∃ c', mAdj c k = some c' ∧ Adjusts Z h c k c' := by
  obtain ⟨c', heq, htrims, hbytes, hhdr⟩ := mAdj_spec h hc.ne hc.fits hlo hhi
  refine ⟨c', heq, ?_, ?_, htrims, trims_all htrims (fun _ _ => Trims.inside) hc.inside⟩
  · rw [hbytes]
    split
    · exact (min_drop (chain_length h c)).symm
    · congr 1
      omega
  · intro l hl
    obtain ⟨l₀, hl₀⟩ := Option.isSome_iff_exists.mp
      ((trims_packetLen htrims).symm.trans (by rw [hl]; rfl) : (packetLen c).isSome = true)
    exact hhdr l hl (hl₀.trans (congrArg some (hc.pkthdr l₀ hl₀)))

end Obsd.MbufChain
