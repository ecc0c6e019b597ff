import Obsd.OnesSum

/-!
# The checksum of an mbuf chain

`in4_cksum` of `netinet/in4_cksum.c` adds the bytes of a chain in words of the
machine's byte order. A word may lie across two mbufs, and data that starts at
an odd address is added in words that are shifted by a byte. `in4_cksum_eq`
says that the result is that of the plain bytes, and that no addition goes
over 32 bits.
-/

namespace Obsd.In4Cksum

/-- An mbuf: the address of its data, and the data. -/
structure Mbuf where
  addr : Nat
  data : List UInt8

def bytes (chain : List Mbuf) : List UInt8 := chain.flatMap (·.data)

/-- Two bytes in the order of the machine. -/
def word (be : Bool) (c0 c1 : UInt8) : Nat :=
  if be then c0.toNat * 256 + c1.toNat else c0.toNat + c1.toNat * 256

/-! ## The accumulator -/

/-- `sum`, and whether an addition or a shift has ever lost a bit of it. -/
structure Acc where
  sum : Nat
  lost : Bool

/-- A result of any size in 32 bits. -/
def Acc.put (acc : Acc) (x : Nat) : Acc :=
  ⟨x % 4294967296, acc.lost || decide (4294967296 ≤ x)⟩

/-- `sum += v` -/
def Acc.add (acc : Acc) (v : Nat) : Acc := acc.put (acc.sum + v)

/-- `sum <<= 8` -/
def Acc.shl8 (acc : Acc) : Acc := acc.put (acc.sum * 256)

/-- `REDUCE`: the two halves, and `ADDCARRY` -/
def Acc.reduce (acc : Acc) : Acc :=
  let x := acc.sum / 65536 + acc.sum % 65536
  acc.put (if 65535 < x then x - 65535 else x)

/-- `~sum & 0xffff` -/
def Acc.value (acc : Acc) : BitVec 16 := (~~~BitVec.ofNat 32 acc.sum).setWidth 16

/-! ## One mbuf -/

/-- The words `w[0]` to `w[n - 1]` -/
def addWords (be : Bool) : Nat → Acc → List UInt8 → Acc
  | 0, acc, _ => acc
  | n + 1, acc, w => addWords be n (acc.add (word be (w.getD 0 0) (w.getD 1 0))) (w.drop 2)

/-- The loop `while ((mlen -= 2 * n) >= 0)` over `n` words at a time. -/
def addLoop (be : Bool) (n : Nat) : Nat → Acc → List UInt8 → Int → Acc × List UInt8 × Int
  | 0, acc, w, mlen => (acc, w, mlen)
  | fuel + 1, acc, w, mlen =>
      if 0 ≤ mlen - 2 * n then
        addLoop be n fuel (addWords be n acc w) (w.drop (2 * n)) (mlen - 2 * n)
      else (acc, w, mlen - 2 * n)

/-- The unrolled loops. -/
def addBulk (be : Bool) (acc : Acc) (w : List UInt8) (mlen : Int) : Acc × List UInt8 × Int :=
  let (acc, w, mlen) := addLoop be 16 (mlen.toNat + 1) acc w mlen
  let mlen := mlen + 32
  let (acc, w, mlen) := addLoop be 4 (mlen.toNat + 1) acc w mlen
  (acc, w, mlen + 8)

/-- The bytes `w` of an mbuf, of which `mlen` are added: the sum, `mlen` and `s_util.c[0]`
after it. `byte_swapped` is 0 before and after, so it is only known here. -/
def body (be : Bool) (acc : Acc) (w : List UInt8) (addr : Nat) (mlen : Int) (c0 : UInt8) :
    Acc × Int × UInt8 :=
  let swapped := decide (addr % 2 = 1 ∧ 0 < mlen)
  let (acc, c0, w, mlen) :=
    if swapped then (acc.reduce.shl8, w.getD 0 0, w.drop 1, mlen - 1) else (acc, c0, w, mlen)
  let (acc, w, mlen) := addBulk be acc w mlen
  if mlen = 0 ∧ swapped = false then (acc, mlen, c0)
  else
    let (acc, w, mlen) := addLoop be 1 (mlen.toNat + 1) acc.reduce w mlen
    if swapped then
      let acc := acc.reduce.shl8
      if mlen = -1 then (acc.add (word be c0 (w.getD 0 0)), 0, c0) else (acc, -1, c0)
    else if mlen = -1 then (acc, mlen, w.getD 0 0)
    else (acc, mlen, c0)

/-- The variables of the loop over the chain. -/
structure St where
  acc : Acc
  mlen : Int
  c0 : UInt8
  off : Nat
  len : Nat

def step (be : Bool) (s : St) (m : Mbuf) : St :=
  if m.data.length = 0 then s
  else
    let w := m.data.drop s.off
    let addr := m.addr + s.off
    if s.mlen = -1 then
      let acc := s.acc.add (word be s.c0 (w.getD 0 0))
      let len := s.len - 1
      let mlen := min len (m.data.length - s.off - 1)
      let (acc, mlen', c0) := body be acc (w.drop 1) (addr + 1) mlen s.c0
      ⟨acc, mlen', c0, 0, len - mlen⟩
    else
      let mlen := min s.len (m.data.length - s.off)
      let (acc, mlen', c0) := body be s.acc w addr mlen s.c0
      ⟨acc, mlen', c0, 0, s.len - mlen⟩

/-! ## The chain -/

/-- Skip the unnecessary part: the offset in the first mbuf that is left, and the mbufs. -/
def skip : Nat → List Mbuf → Nat × List Mbuf
  | off, [] => (off, [])
  | off, m :: rest =>
      if 0 < off then
        if off < m.data.length then (off, m :: rest) else skip (off - m.data.length) rest
      else (off, m :: rest)

def loop (be : Bool) : St → List Mbuf → St
  | s, [] => s
  | s, m :: rest => if s.len = 0 then s else loop be (step be s m) rest

/-- `struct ipovly` for `htons(len)`, `nxt` and the addresses of the IP header. -/
def ipovly (nxt : UInt8) (len : Nat) (ip : List UInt8) : List UInt8 :=
  List.replicate 9 0 ++ [nxt, UInt8.ofNat (len / 256), UInt8.ofNat len] ++ (ip.drop 12).take 8

/-- `in4_cksum`, with whether a bit of the sum was lost, or `none` where it panics.
`junk` is in `s_util`. -/
def in4Cksum (be : Bool) (junk : UInt8) (chain : List Mbuf) (nxt : UInt8) (off len : Nat) :
    Option Acc :=
  let ip := (chain.headD ⟨0, []⟩).data
  if nxt ≠ 0 ∧ (off < 20 ∨ ip.length < 20) then none
  else
    let acc := if nxt ≠ 0 then addWords be 10 ⟨0, false⟩ (ipovly nxt len ip) else ⟨0, false⟩
    let (off, rest) := skip off chain
    let s := loop be ⟨acc, 0, junk, off, len⟩ rest
    let acc := if s.mlen = -1 then s.acc.add (word be s.c0 0) else s.acc
    some acc.reduce

/-! ## What the checksum is of -/

/-- The words of bytes, an odd last one with zero behind it. -/
def words (be : Bool) : List UInt8 → List (BitVec 16)
  | [] => []
  | [c0] => [BitVec.ofNat 16 (word be c0 0)]
  | c0 :: c1 :: rest => BitVec.ofNat 16 (word be c0 c1) :: words be rest

/-- The pseudo header: source, destination, zero, protocol, length. -/
def pseudoHeader (ip : List UInt8) (nxt : UInt8) (len : Nat) : List UInt8 :=
  (ip.drop 12).take 4 ++ (ip.drop 16).take 4 ++ [0, nxt, UInt8.ofNat (len / 256), UInt8.ofNat len]

/-- The complement of the one's-complement sum. -/
def cksum (be : Bool) (bs : List UInt8) : BitVec 16 := ~~~OnesSum.sum (words be bs)

/-! ## Sums that stand for the same -/

/-- The same number modulo 65535, and both zero or neither. -/
def Same (a b : Nat) : Prop := a ≡ b [MOD 65535] ∧ (a = 0 ↔ b = 0)

theorem Same.refl (a : Nat) : Same a a := ⟨rfl, Iff.rfl⟩

theorem Same.symm {a b : Nat} (h : Same a b) : Same b a := ⟨h.1.symm, h.2.symm⟩

theorem Same.trans {a b c : Nat} (h : Same a b) (h' : Same b c) : Same a c :=
  ⟨h.1.trans h'.1, h.2.trans h'.2⟩

theorem Same.add {a b c d : Nat} (h : Same a b) (h' : Same c d) : Same (a + c) (b + d) := by
  refine ⟨h.1.add h'.1, ?_⟩
  rw [Nat.add_eq_zero_iff, Nat.add_eq_zero_iff, h.2, h'.2]

theorem Same.mul {a b : Nat} (h : Same a b) (c : Nat) : Same (a * c) (b * c) := by
  refine ⟨h.1.mul_right c, ?_⟩
  rw [Nat.mul_eq_zero, Nat.mul_eq_zero, h.2]

/-- A byte over two words comes back at the bottom. -/
theorem same_swap (a : Nat) : Same (a * 256 * 256) a := by
  refine ⟨?_, by omega⟩
  have hmul : a * 256 * 256 = a + 65535 * a := by omega
  rw [hmul]
  exact Nat.add_mul_mod_self_left a 65535 a

/-- There is one of each kind up to 65535. -/
theorem Same.eq {a b : Nat} (h : Same a b) (ha : a ≤ 65535) (hb : b ≤ 65535) : a = b := by
  obtain ⟨hmod, hzero⟩ := h
  unfold Nat.ModEq at hmod
  omega

/-- What a byte counts for at an even or an odd place. -/
def weight (be odd : Bool) : Nat := if be = odd then 1 else 256

theorem word_eq (be : Bool) (c0 c1 : UInt8) :
    word be c0 c1 = weight be false * c0.toNat + weight be true * c1.toNat := by
  cases be
  · exact congrArg₂ (· + ·) (Nat.one_mul _).symm (Nat.mul_comm _ _)
  · exact congrArg₂ (· + ·) (Nat.mul_comm _ _) (Nat.one_mul _).symm

theorem word_zero (be : Bool) (c0 : UInt8) : word be c0 0 = weight be false * c0.toNat := by
  rw [word_eq, UInt8.toNat_zero, Nat.mul_zero, Nat.add_zero]

theorem word_le (be : Bool) (c0 c1 : UInt8) : word be c0 c1 ≤ 65535 := by
  have h0 := c0.toNat_lt
  have h1 := c1.toNat_lt
  unfold word
  split <;> omega

/-- What bytes from an even or an odd place on count for. -/
def sumAt (be : Bool) : Bool → List UInt8 → Nat
  | _, [] => 0
  | odd, b :: bs => weight be odd * b.toNat + sumAt be (!odd) bs

theorem sumAt_append {be odd : Bool} {u : List UInt8} (v : List UInt8) (hu : u.length % 2 = 0) :
    sumAt be odd (u ++ v) = sumAt be odd u + sumAt be odd v := by
  induction u using List.twoStepInduction generalizing odd with
  | nil => exact (Nat.zero_add _).symm
  | singleton b => exact absurd hu (by simp)
  | cons_cons b c u ih =>
      have hrec := @ih odd (by rw [List.length_cons, List.length_cons] at hu; omega)
      simp only [List.cons_append, sumAt, Bool.not_not, hrec]
      omega

theorem sumAt_append_odd {be odd : Bool} {u : List UInt8} (v : List UInt8)
    (hu : u.length % 2 = 1) : sumAt be odd (u ++ v) = sumAt be odd u + sumAt be (!odd) v := by
  match u, hu with
  | b :: u, hu =>
      rw [List.length_cons] at hu
      rw [List.cons_append, sumAt, sumAt_append v (by omega), sumAt, Nat.add_assoc]

/-- A sum times 256 is that of the other places. -/
theorem same_shift (be odd : Bool) (bs : List UInt8) :
    Same (sumAt be odd bs * 256) (sumAt be (!odd) bs) := by
  induction bs generalizing odd with
  | nil =>
      rw [sumAt, sumAt, Nat.zero_mul]
      exact Same.refl 0
  | cons b bs ih =>
      rw [sumAt, sumAt, Nat.add_mul]
      refine Same.add ?_ (ih (!odd))
      have hother : weight be (!odd) = 1 ∧ weight be odd = 256 ∨
          weight be (!odd) = 256 ∧ weight be odd = 1 := by
        cases be <;> cases odd <;> decide
      obtain ⟨h1, h2⟩ | ⟨h1, h2⟩ := hother
      · rw [h1, h2, Nat.one_mul, Nat.mul_comm 256]
        exact same_swap _
      · rw [h1, h2, Nat.one_mul, Nat.mul_comm 256]
        exact Same.refl _

/-! ## The accumulator keeps what it stands for -/

/-- Nothing is lost, the sum stands for `x`, and it is at most that of `n` bytes. -/
structure Acc.Holds (acc : Acc) (x n : Nat) : Prop where
  kept : acc.lost = false
  same : Same acc.sum x
  bound : 2 * acc.sum ≤ 65535 * n

variable {acc : Acc} {x n : Nat}

theorem Acc.Holds.mono (h : acc.Holds x n) {n' : Nat} (hn : n ≤ n') : acc.Holds x n' :=
  ⟨h.kept, h.same, Nat.le_trans h.bound (Nat.mul_le_mul_left _ hn)⟩

theorem Acc.Holds.congr (h : acc.Holds x n) {y : Nat} (hxy : Same x y) : acc.Holds y n :=
  ⟨h.kept, h.same.trans hxy, h.bound⟩

theorem put_holds (hkept : acc.lost = false) {y : Nat} (hsame : Same y x)
    (hbound : 2 * y ≤ 65535 * n) (hn : n ≤ 131073) : (acc.put y).Holds x n := by
  have hsum : (acc.put y).sum = y := Nat.mod_eq_of_lt (by omega)
  refine ⟨?_, by rwa [hsum], by rwa [hsum]⟩
  rw [Acc.put, hkept, Bool.false_or, decide_eq_false_iff_not]
  omega

theorem Acc.Holds.add (h : acc.Holds x n) {v : Nat} (hv : v ≤ 65535) (hn : n ≤ 131071) :
    (acc.add v).Holds (x + v) (n + 2) := by
  have hbound := h.bound
  exact put_holds h.kept (h.same.add (.refl v)) (by omega) (by omega)

theorem Acc.Holds.reduce (h : acc.Holds x n) (hn : n ≤ 131073) : acc.reduce.Holds x 2 := by
  have hbound := h.bound
  refine put_holds h.kept (Same.trans ⟨?_, ?_⟩ h.same) ?_ (by decide)
  · unfold Nat.ModEq
    split <;> omega
  · split <;> omega
  · split <;> omega

theorem Acc.Holds.shl8 (h : acc.Holds x 2) : acc.shl8.Holds (x * 256) 512 := by
  have hbound := h.bound
  exact put_holds h.kept (h.same.mul 256) (by omega) (by decide)

/-! ## The loops -/

theorem addWords_holds (be : Bool) {k : Nat} {w : List UInt8} (h : acc.Holds x n)
    (hw : 2 * k ≤ w.length) (hn : n + 2 * k ≤ 131073) :
    (addWords be k acc w).Holds (x + sumAt be false (w.take (2 * k))) (n + 2 * k) := by
  induction k generalizing acc x n w with
  | zero => exact h
  | succ k ih =>
      match w, hw with
      | c0 :: c1 :: rest, hw =>
          have hadd := h.add (word_le be c0 c1) (by omega)
          rw [List.length_cons, List.length_cons] at hw
          have hrec := ih (w := rest) hadd (by omega) (by omega)
          have htake : (c0 :: c1 :: rest).take (2 * (k + 1)) = c0 :: c1 :: rest.take (2 * k) := rfl
          rw [htake, sumAt, sumAt, Bool.not_false, Bool.not_true, ← Nat.add_assoc (weight _ _ * _),
            ← word_eq, ← Nat.add_assoc]
          have hcount : n + 2 * (k + 1) = n + 2 + 2 * k := by omega
          rw [hcount]
          exact hrec

/-- One of the loops adds the words `u` and leaves less than a round of bytes. -/
theorem addLoop_spec (be : Bool) (fuel : Nat) {r k : Nat} (hr : 0 < r) {w : List UInt8}
    (h : acc.Holds x n) (hw : k ≤ w.length) (hfuel : k < fuel) (hn : n + k ≤ 131073) :
    ∃ (acc' : Acc) (u v : List UInt8),
      addLoop be r fuel acc w k = (acc', v, ((k % (2 * r) : Nat) : Int) - 2 * r) ∧ w = u ++ v ∧
      u.length = k - k % (2 * r) ∧ acc'.Holds (x + sumAt be false u) (n + u.length) := by
  induction fuel generalizing acc x n k w with
  | zero => exact absurd hfuel (Nat.not_lt_zero k)
  | succ fuel ih =>
      rw [addLoop]
      by_cases hround : 2 * r ≤ k
      · have hadd := addWords_holds be h (Nat.le_trans hround hw) (by omega)
        have hk : (k : Int) - 2 * r = (k - 2 * r : Nat) := by omega
        have hmod : k % (2 * r) = (k - 2 * r) % (2 * r) := Nat.mod_eq_sub_mod hround
        have hmodle := Nat.mod_le (k - 2 * r) (2 * r)
        obtain ⟨acc', u, v, heq, hcut, hlen, hholds⟩ := ih (w := w.drop (2 * r)) (k := k - 2 * r)
          hadd (by rw [List.length_drop]; omega) (by omega) (by omega)
        have hfirst : (w.take (2 * r)).length = 2 * r :=
          List.length_take_of_le (Nat.le_trans hround hw)
        refine ⟨acc', w.take (2 * r) ++ u, v, ?_, ?_, ?_, ?_⟩
        · rw [hk, hmod]
          exact heq
        · rw [List.append_assoc, ← hcut, List.take_append_drop]
        · rw [List.length_append, hfirst, hlen, hmod]
          omega
        · rw [sumAt_append _ (by omega), List.length_append, hfirst]
          convert hholds using 1 <;> omega
      · rw [if_neg (by omega), Nat.mod_eq_of_lt (by omega)]
        exact ⟨acc, [], w, rfl, rfl, (Nat.sub_self k).symm, h⟩

theorem addBulk_spec (be : Bool) {k : Nat} {w : List UInt8} (h : acc.Holds x n)
    (hw : k ≤ w.length) (hn : n + k ≤ 131073) :
    ∃ (acc' : Acc) (u v : List UInt8),
      addBulk be acc w k = (acc', v, ((k % 8 : Nat) : Int)) ∧ w = u ++ v ∧
      u.length = k - k % 8 ∧ acc'.Holds (x + sumAt be false u) (n + u.length) := by
  obtain ⟨acc₁, u₁, v₁, heq₁, hcut₁, hlen₁, hholds₁⟩ :=
    addLoop_spec be (k + 1) (r := 16) (by decide) h hw (Nat.lt_succ_self k) hn
  have hlast : v₁.length = w.length - u₁.length := by
    rw [hcut₁, List.length_append, Nat.add_sub_cancel_left]
  obtain ⟨acc₂, u₂, v₂, heq₂, hcut₂, hlen₂, hholds₂⟩ :=
    addLoop_spec be (k % 32 + 1) (r := 4) (k := k % 32) (by decide) hholds₁
      (w := v₁) (by omega) (Nat.lt_succ_self _) (by omega)
  refine ⟨acc₂, u₁ ++ u₂, v₂, ?_, ?_, ?_, ?_⟩
  · unfold addBulk
    have hfirst : ((k % (2 * 16) : Nat) : Int) - 2 * (16 : Nat) + 32 = (k % 32 : Nat) := by omega
    have hsecond : ((k % 32 % (2 * 4) : Nat) : Int) - 2 * (4 : Nat) + 8 = (k % 8 : Nat) := by omega
    rw [Int.toNat_natCast, heq₁]
    dsimp only
    rw [hfirst, Int.toNat_natCast, heq₂]
    rw [hsecond]
  · rw [List.append_assoc, ← hcut₂, hcut₁]
  · rw [List.length_append]
    omega
  · rw [sumAt_append _ (by omega), List.length_append, ← Nat.add_assoc, ← Nat.add_assoc]
    exact hholds₂

/-- What a byte that waits in `s_util.c[0]` counts for. -/
def pending (be : Bool) (mlen : Int) (c0 : UInt8) : Nat :=
  if mlen = -1 then weight be false * c0.toNat else 0

/-- The last loop, after which one byte may be left. -/
theorem addRest_spec (be : Bool) {k : Nat} {w : List UInt8} (h : acc.Holds x n)
    (hw : k ≤ w.length) (hn : n + k ≤ 131073) :
    ∃ (acc' : Acc) (u v : List UInt8) (mlen' : Int),
      addLoop be 1 (k + 1) acc w k = (acc', v, mlen') ∧ w = u ++ v ∧ u.length = k - k % 2 ∧
      (mlen' = -1 ↔ k % 2 = 1) ∧ acc'.Holds (x + sumAt be false u) (n + u.length) := by
  obtain ⟨acc', u, v, heq, hcut, hlen, hholds⟩ :=
    addLoop_spec be (k + 1) (r := 1) (by decide) h hw (Nat.lt_succ_self k) hn
  exact ⟨acc', u, v, _, heq, hcut, hlen, by omega, hholds⟩

theorem take_append_even {w u v : List UInt8} {k : Nat} (hcut : w = u ++ v) (hu : u.length = k) :
    w.take k = u := by
  rw [hcut]
  exact List.take_left' hu

theorem take_append_odd {w u v : List UInt8} {k : Nat} (hcut : w = u ++ v) (hk : k ≤ w.length)
    (hu : u.length + 1 = k) : w.take k = u ++ [v.getD 0 0] := by
  subst hcut hu
  match v, hk with
  | [], hk => exact absurd hk (by simp)
  | b :: rest, _ =>
      rw [List.take_length_add_append]
      rfl

theorem sumAt_singleton (be odd : Bool) (b : UInt8) :
    sumAt be odd [b] = weight be odd * b.toNat := by
  rw [sumAt, sumAt, Nat.add_zero]

/-- Both loops, with the sum reduced in between. -/
theorem bulk_rest_spec (be : Bool) {k : Nat} {w : List UInt8} (h : acc.Holds x n)
    (hw : k ≤ w.length) (hn : n + k ≤ 131073) :
    ∃ (acc₁ acc₂ : Acc) (v₁ u v : List UInt8) (mlen' : Int),
      addBulk be acc w k = (acc₁, v₁, ((k % 8 : Nat) : Int)) ∧
      addLoop be 1 (k % 8 + 1) acc₁.reduce v₁ (k % 8 : Nat) = (acc₂, v, mlen') ∧
      w = u ++ v ∧ u.length = k - k % 2 ∧ (mlen' = -1 ↔ k % 2 = 1) ∧
      acc₂.Holds (x + sumAt be false u) 10 ∧
      (k % 8 = 0 → acc₁.Holds (x + sumAt be false u) (n + u.length)) := by
  obtain ⟨acc₁, u₁, v₁, heq₁, hcut₁, hlen₁, hholds₁⟩ := addBulk_spec be h hw hn
  have hlast : v₁.length = w.length - u₁.length := by
    rw [hcut₁, List.length_append, Nat.add_sub_cancel_left]
  obtain ⟨acc₂, u₂, v₂, mlen', heq₂, hcut₂, hlen₂, hmlen, hholds₂⟩ :=
    addRest_spec be (k := k % 8) (w := v₁) (hholds₁.reduce (by omega)) (by omega) (by omega)
  refine ⟨acc₁, acc₂, v₁, u₁ ++ u₂, v₂, mlen', heq₁, heq₂, ?_, ?_, ?_, ?_, fun hzero => ?_⟩
  · rw [List.append_assoc, ← hcut₂, hcut₁]
  · rw [List.length_append]
    omega
  · omega
  · rw [sumAt_append _ (by omega), ← Nat.add_assoc]
    exact hholds₂.mono (by omega)
  · have hnone : u₂ = [] := List.eq_nil_of_length_eq_zero (by omega)
    rw [hnone, List.append_nil]
    exact hholds₁

/-- The bytes of one mbuf that start at an even address. -/
theorem body_even (be : Bool) {k addr : Nat} {w : List UInt8} (c0 : UInt8) (h : acc.Holds x n)
    (hw : k ≤ w.length) (hn : n + k ≤ 131073) (hlo : 514 ≤ n)
    (haddr : ¬(addr % 2 = 1 ∧ (0 : Int) < k)) :
    ∃ (acc' : Acc) (mlen' : Int) (c0' : UInt8) (y : Nat),
      body be acc w addr k c0 = (acc', mlen', c0') ∧ (mlen' = -1 ↔ k % 2 = 1) ∧
      acc'.Holds y (n + 2 * (k / 2)) ∧
      Same (y + pending be mlen' c0') (x + sumAt be false (w.take k)) := by
  obtain ⟨acc₁, acc₂, v₁, u, v, mlen', heq₁, heq₂, hcut, hlen, hmlen, hholds, hbulk⟩ :=
    bulk_rest_spec be h hw hn
  unfold body
  rw [decide_eq_false haddr]
  simp only [Bool.false_eq_true, if_false, heq₁, and_true]
  by_cases hzero : k % 8 = 0
  · rw [if_pos (by omega)]
    have htake := take_append_even hcut (by omega : u.length = k)
    refine ⟨acc₁, _, c0, _, rfl, by omega, (hbulk hzero).mono (by omega), ?_⟩
    rw [pending, if_neg (by omega), htake]
    exact Same.refl _
  · rw [if_neg (by omega), Int.toNat_natCast, heq₂]
    by_cases hodd : mlen' = -1
    · rw [if_pos hodd]
      refine ⟨acc₂, _, _, _, rfl, hmlen, hholds.mono (by omega), ?_⟩
      have hk := hmlen.mp hodd
      rw [pending, if_pos hodd, take_append_odd hcut hw (by omega), sumAt_append _ (by omega),
        sumAt_singleton, Nat.add_assoc]
      exact Same.refl _
    · rw [if_neg hodd]
      have hk : k % 2 = 0 := by
        omega
      have htake := take_append_even hcut (by omega : u.length = k)
      refine ⟨acc₂, _, _, _, rfl, hmlen, hholds.mono (by omega), ?_⟩
      rw [pending, if_neg hodd, htake]
      exact Same.refl _

/-- The bytes of one mbuf that start at an odd address: the sum is that of the other places until
it is shifted back. -/
theorem body_odd (be : Bool) {k addr : Nat} {b : UInt8} {w : List UInt8} (c0 : UInt8)
    (h : acc.Holds x n) (hw : k ≤ w.length) (hn : n + k ≤ 131000) (hlo : 514 ≤ n)
    (haddr : addr % 2 = 1) :
    ∃ (acc' : Acc) (mlen' : Int) (c0' : UInt8) (y : Nat),
      body be acc (b :: w) addr (k + 1 : Nat) c0 = (acc', mlen', c0') ∧
      (mlen' = -1 ↔ (k + 1) % 2 = 1) ∧ acc'.Holds y n ∧
      Same (y + pending be mlen' c0') (x + sumAt be false ((b :: w).take (k + 1))) := by
  have hshift := (h.reduce (by omega)).shl8
  obtain ⟨acc₁, acc₂, v₁, u, v, mlen', heq₁, heq₂, hcut, hlen, hmlen, hholds, -⟩ :=
    bulk_rest_spec be (k := k) (w := w) hshift hw (by omega)
  have hback := (hholds.reduce (by decide)).shl8
  have hsame : Same ((x * 256 + sumAt be false u) * 256) (x + sumAt be true u) := by
    rw [Nat.add_mul]
    exact (same_swap x).add (same_shift be false u)
  have hminus : ((k + 1 : Nat) : Int) - 1 = k := by omega
  unfold body
  rw [decide_eq_true (And.intro haddr (by omega))]
  simp only [if_true, Bool.true_eq_false, and_false, if_false, List.getD_cons_zero,
    List.drop_succ_cons, List.drop_zero, hminus, heq₁, Int.toNat_natCast, heq₂]
  rw [List.take_succ_cons, sumAt, Bool.not_false]
  by_cases hodd : mlen' = -1
  · rw [if_pos hodd]
    have hk := hmlen.mp hodd
    refine ⟨_, 0, b, _, rfl, by omega, ((hback.congr hsame).add (word_le be b (v.getD 0 0))
      (by decide)).mono (by omega), ?_⟩
    rw [pending, if_neg (by decide), take_append_odd hcut hw (by omega), sumAt_append _ (by omega),
      sumAt_singleton, word_eq, Nat.add_zero]
    have hperm : x + sumAt be true u + (weight be false * b.toNat +
        weight be true * (v.getD 0 0).toNat) = x + (weight be false * b.toNat +
          (sumAt be true u + weight be true * (v.getD 0 0).toNat)) := by omega
    rw [hperm]
    exact Same.refl _
  · rw [if_neg hodd]
    have hk : k % 2 = 0 := by
      omega
    have htake := take_append_even hcut (by omega : u.length = k)
    refine ⟨_, -1, b, _, rfl, by omega, (hback.congr hsame).mono (by omega), ?_⟩
    rw [pending, if_pos rfl, htake, Nat.add_comm (weight _ _ * _), Nat.add_assoc]
    exact Same.refl _

/-- The bytes of one mbuf. -/
theorem body_spec (be : Bool) {k : Nat} {w : List UInt8} (addr : Nat) (c0 : UInt8)
    (h : acc.Holds x n) (hw : k ≤ w.length) (hn : n + k ≤ 131000) (hlo : 514 ≤ n) :
    ∃ (acc' : Acc) (mlen' : Int) (c0' : UInt8) (y : Nat),
      body be acc w addr k c0 = (acc', mlen', c0') ∧ (mlen' = -1 ↔ k % 2 = 1) ∧
      acc'.Holds y (n + 2 * (k / 2)) ∧
      Same (y + pending be mlen' c0') (x + sumAt be false (w.take k)) := by
  by_cases haddr : addr % 2 = 1 ∧ (0 : Int) < k
  · match k, w, hw with
    | 0, _, _ => exact absurd haddr.2 (by decide)
    | k + 1, b :: w, hw =>
        obtain ⟨acc', mlen', c0', y, heq, hmlen, hholds, hsame⟩ :=
          body_odd be c0 h (Nat.le_of_succ_le_succ hw) (by omega) hlo haddr.1
        exact ⟨acc', mlen', c0', y, heq, hmlen, hholds.mono (Nat.le_add_right _ _), hsame⟩
  · exact body_even be c0 h hw (by omega) hlo haddr

/-! ## The chain -/

/-- The sum stands for `start` and the bytes `done`, but for an odd last one that is kept. -/
structure St.Inv (be : Bool) (start : Nat) (s : St) (done : List UInt8) : Prop where
  odd : s.mlen = -1 ↔ done.length % 2 = 1
  holds : ∃ y, s.acc.Holds y (534 + 2 * (done.length / 2)) ∧
    Same (y + pending be s.mlen s.c0) (start + sumAt be false done)

/-- The bytes of an mbuf behind an even number of others. -/
theorem body_inv (be : Bool) {start k : Nat} {done w : List UInt8} (addr : Nat) (c0 : UInt8)
    (heven : done.length % 2 = 0) (h : acc.Holds x (534 + 2 * (done.length / 2)))
    (hsame : Same x (start + sumAt be false done)) (hk : k ≤ w.length)
    (hmax : done.length + k ≤ 65535) :
    ∃ (acc' : Acc) (mlen' : Int) (c0' : UInt8), body be acc w addr k c0 = (acc', mlen', c0') ∧
      ∀ off len, (St.mk acc' mlen' c0' off len).Inv be start (done ++ w.take k) := by
  obtain ⟨acc', mlen', c0', y, heq, hmlen, hholds, hbody⟩ :=
    body_spec be addr c0 h hk (by omega) (by omega)
  refine ⟨acc', mlen', c0', heq, fun off len => ⟨?_, y, ?_, ?_⟩⟩
  · rw [List.length_append, List.length_take_of_le hk]
    exact hmlen.trans (by omega)
  · rw [List.length_append, List.length_take_of_le hk]
    exact hholds.mono (by omega)
  · rw [sumAt_append _ heven, ← Nat.add_assoc]
    exact hbody.trans (hsame.add (.refl _))

theorem take_min (w : List UInt8) (k : Nat) : w.take (min k w.length) = w.take k :=
  List.take_eq_take_iff.mpr (by omega)

/-- One mbuf. -/
theorem step_inv {be : Bool} {start : Nat} {s : St} {done : List UInt8} (h : s.Inv be start done)
    {m : Mbuf} (hoff : s.off = 0 ∨ s.off < m.data.length) (hlen : 0 < s.len)
    (hmax : done.length + s.len ≤ 65535) :
    (step be s m).off = 0 ∧
      (step be s m).len = s.len - min s.len (m.data.length - s.off) ∧
      (step be s m).Inv be start (done ++ (m.data.drop s.off).take s.len) := by
  obtain ⟨hodd, y, hholds, hsame⟩ := h
  unfold step
  by_cases hempty : m.data.length = 0
  · rw [if_pos hempty, List.eq_nil_of_length_eq_zero hempty, List.drop_nil, List.take_nil,
      List.append_nil]
    exact ⟨by omega, by rw [List.length_nil]; omega, hodd, y, hholds, hsame⟩
  rw [if_neg hempty]
  have hdrop : (m.data.drop s.off).length = m.data.length - s.off := List.length_drop
  by_cases hpend : s.mlen = -1
  · -- the first byte completes the word that the last mbuf began
    have hlast := hodd.mp hpend
    rw [pending, if_pos hpend] at hsame
    rw [if_pos hpend]
    generalize m.data.drop s.off = w at hdrop ⊢
    match w, hdrop with
    | [], hdrop =>
        rw [List.length_nil] at hdrop
        omega
    | b :: w, hdrop =>
        rw [List.length_cons] at hdrop
        have hadd := hholds.add (word_le be s.c0 b) (by omega)
        have hword : Same (y + word be s.c0 b) (start + sumAt be false (done ++ [b])) := by
          rw [word_eq, sumAt_append_odd _ hlast, sumAt_singleton, ← Nat.add_assoc, ← Nat.add_assoc]
          exact hsame.add (.refl _)
        have hsize : (done ++ [b]).length = done.length + 1 := List.length_append
        obtain ⟨acc', mlen', c0', heq, hinv⟩ := body_inv be (k := min (s.len - 1) w.length) (w := w)
          (m.addr + s.off + 1) s.c0 (by omega) (hadd.mono (by omega)) hword (by omega) (by omega)
        have hrest : m.data.length - s.off - 1 = w.length := by omega
        simp only [List.getD_cons_zero, List.drop_succ_cons, List.drop_zero, hrest, heq]
        refine ⟨trivial, by omega, ?_⟩
        have htake : (b :: w).take s.len = b :: w.take (min (s.len - 1) w.length) := by
          obtain ⟨l, hl⟩ := Nat.exists_eq_add_of_le' hlen
          rw [hl, List.take_succ_cons, take_min]
          rfl
        rw [htake, ← List.singleton_append, ← List.append_assoc]
        exact hinv _ _
  · rw [pending, if_neg hpend] at hsame
    rw [if_neg hpend]
    obtain ⟨acc', mlen', c0', heq, hinv⟩ :=
      body_inv be (k := min s.len (m.data.drop s.off).length) (w := m.data.drop s.off)
        (m.addr + s.off) s.c0 (by omega) hholds hsame (by omega) (by omega)
    rw [hdrop] at heq
    simp only [heq]
    refine ⟨trivial, trivial, ?_⟩
    rw [← take_min]
    exact hinv _ _

/-- The mbufs from one on in which the data starts at `off`. -/
theorem loop_inv {be : Bool} {start : Nat} {chain : List Mbuf} {s : St} {done : List UInt8}
    (h : s.Inv be start done) (hoff : ∀ m ∈ chain.head?, s.off = 0 ∨ s.off < m.data.length)
    (hlen : s.len ≤ ((bytes chain).drop s.off).length) (hmax : done.length + s.len ≤ 65535) :
    (loop be s chain).Inv be start (done ++ ((bytes chain).drop s.off).take s.len) := by
  induction chain generalizing s done with
  | nil =>
      rw [bytes, List.flatMap_nil, List.drop_nil, List.take_nil, List.append_nil]
      exact h
  | cons m rest ih =>
      rw [loop]
      by_cases hzero : s.len = 0
      · rw [if_pos hzero, hzero, List.take_zero, List.append_nil]
        exact h
      rw [if_neg hzero]
      have hfirst := hoff m rfl
      obtain ⟨hoff', hlen', hinv⟩ := step_inv h hfirst (Nat.pos_of_ne_zero hzero) hmax
      have hcut : (bytes (m :: rest)).drop s.off = m.data.drop s.off ++ bytes rest := by
        rw [bytes, List.flatMap_cons, List.drop_append_of_le_length (by omega)]
        rfl
      have hdrop : (m.data.drop s.off).length = m.data.length - s.off := List.length_drop
      rw [hcut, List.length_append, hdrop] at hlen
      have hdone : (done ++ (m.data.drop s.off).take s.len).length =
          done.length + min s.len (m.data.length - s.off) := by
        rw [List.length_append, List.length_take, hdrop]
      have hrest := ih hinv (fun _ _ => .inl hoff') (by rw [hoff', List.drop_zero]; omega)
        (by omega)
      have hleft : s.len - min s.len (m.data.length - s.off) =
          s.len - (m.data.drop s.off).length := by omega
      rw [hoff', List.drop_zero, hlen', hleft, List.append_assoc, ← List.take_append] at hrest
      rw [hcut]
      exact hrest

theorem skip_spec (off : Nat) (chain : List Mbuf) :
    (bytes (skip off chain).2).drop (skip off chain).1 = (bytes chain).drop off ∧
      ∀ m ∈ (skip off chain).2.head?, (skip off chain).1 = 0 ∨
        (skip off chain).1 < m.data.length := by
  induction chain generalizing off with
  | nil => exact ⟨rfl, fun m hm => by simp [skip] at hm⟩
  | cons m rest ih =>
      rw [skip]
      split
      · split
        · rename_i hlt
          refine ⟨rfl, fun m' hm => .inr ?_⟩
          obtain rfl := Option.some.inj hm
          exact hlt
        · rename_i hge
          refine ⟨?_, (ih _).2⟩
          rw [(ih _).1, bytes, bytes, List.flatMap_cons, List.drop_append,
            List.drop_eq_nil_of_le (Nat.le_of_not_lt hge), List.nil_append]
      · rename_i hzero
        exact ⟨rfl, fun _ _ => .inl (Nat.eq_zero_of_not_pos hzero)⟩

/-! ## The one's-complement sum -/

theorem foldl_same (be : Bool) (bs : List UInt8) : ∀ a : BitVec 16,
    Same ((words be bs).foldl OnesSum.add a).toNat (a.toNat + sumAt be false bs) := by
  have hadd : ∀ (a : BitVec 16) (c0 c1 : UInt8),
      Same (OnesSum.add a (BitVec.ofNat 16 (word be c0 c1))).toNat (a.toNat + word be c0 c1) := by
    intro a c0 c1
    have hword := word_le be c0 c1
    have hmod : word be c0 c1 % 2 ^ 16 = word be c0 c1 := Nat.mod_eq_of_lt (by omega)
    rw [OnesSum.toNat_add, BitVec.toNat_ofNat, hmod]
    refine ⟨?_, ?_⟩
    · unfold Nat.ModEq
      split <;> omega
    · split <;> omega
  induction bs using List.twoStepInduction with
  | nil => exact fun a => Same.refl _
  | singleton b =>
      intro a
      rw [sumAt_singleton, ← word_zero]
      exact hadd a b 0
  | cons_cons b c bs ih =>
      intro a
      refine (ih _).trans ?_
      rw [sumAt, sumAt, Bool.not_false, Bool.not_true, ← Nat.add_assoc (weight _ _ * _), ← word_eq,
        ← Nat.add_assoc]
      exact (hadd a b c).add (Same.refl _)

theorem value_eq {be : Bool} {bs : List UInt8} (h : acc.Holds (sumAt be false bs) 2) :
    acc.value = cksum be bs := by
  have hbound := h.bound
  have hfold := foldl_same be bs 0#16
  rw [BitVec.toNat_zero, Nat.zero_add] at hfold
  have hlt := (OnesSum.sum (words be bs)).isLt
  have heq : acc.sum = (OnesSum.sum (words be bs)).toNat :=
    (h.same.trans hfold.symm).eq (by omega) (Nat.le_of_lt_succ hlt)
  rw [Acc.value, cksum, BitVec.setWidth_not (by decide), heq]
  congr 1
  apply BitVec.eq_of_toNat_eq
  rw [BitVec.toNat_setWidth, BitVec.toNat_ofNat]
  omega

/-- The words of `struct ipovly` are those of the pseudo header in another order. -/
theorem sumAt_ipovly (be : Bool) (nxt : UInt8) (len : Nat) {ip : List UInt8}
    (hip : 20 ≤ ip.length) :
    sumAt be false (ipovly nxt len ip) = sumAt be false (pseudoHeader ip nxt len) := by
  have haddrs : (ip.drop 12).take 8 = (ip.drop 12).take 4 ++ (ip.drop 16).take 4 := by
    rw [← List.drop_drop (i := 4) (j := 12)]
    exact List.take_add (i := 4) (j := 4)
  have hlen : ((ip.drop 12).take 4 ++ (ip.drop 16).take 4).length % 2 = 0 := by
    rw [List.length_append, List.length_take, List.length_take, List.length_drop, List.length_drop]
    omega
  have hfront : (List.replicate 9 0 ++
      [nxt, UInt8.ofNat (len / 256), UInt8.ofNat len]).length % 2 = 0 := by simp
  rw [ipovly, pseudoHeader, haddrs, sumAt_append _ hfront, sumAt_append _ hlen, Nat.add_comm]
  simp [List.replicate, sumAt]

theorem length_ipovly (nxt : UInt8) (len : Nat) {ip : List UInt8} (hip : 20 ≤ ip.length) :
    (ipovly nxt len ip).length = 20 := by
  rw [ipovly, List.length_append, List.length_take, List.length_drop]
  change 12 + _ = 20
  omega

/-- The checksum of any part of any chain, with the pseudo header of its IP header if `nxt` is
not 0: nothing is lost from the sum, and the value is that of the plain bytes. -/
theorem in4_cksum_eq (be : Bool) (junk : UInt8) (chain : List Mbuf) (nxt : UInt8) (off len : Nat)
    (hlen : len ≤ 65535) (hin : off + len ≤ (bytes chain).length)
    (hip : nxt ≠ 0 → 20 ≤ off ∧ 20 ≤ (chain.headD ⟨0, []⟩).data.length) :
    ∃ r, in4Cksum be junk chain nxt off len = some r ∧ r.lost = false ∧
      r.value = cksum be ((if nxt ≠ 0 then pseudoHeader (bytes chain) nxt len else []) ++
        ((bytes chain).drop off).take len) := by
  have hstart : ∃ acc₀ pseudo,
      (if nxt ≠ 0 then addWords be 10 ⟨0, false⟩ (ipovly nxt len (chain.headD ⟨0, []⟩).data)
        else ⟨0, false⟩) = acc₀ ∧
      (if nxt ≠ 0 then pseudoHeader (bytes chain) nxt len else []) = pseudo ∧
      pseudo.length % 2 = 0 ∧ acc₀.Holds (sumAt be false pseudo) 20 := by
    have hzero : (Acc.mk 0 false).Holds 0 0 := ⟨rfl, .refl 0, Nat.le_refl _⟩
    by_cases hnxt : nxt ≠ 0
    · obtain ⟨-, hlong⟩ := hip hnxt
      match chain, hlong with
      | m :: rest, hlong =>
          rw [List.headD_cons] at hlong ⊢
          have hsame : pseudoHeader (bytes (m :: rest)) nxt len = pseudoHeader m.data nxt len := by
            rw [pseudoHeader, pseudoHeader, bytes, List.flatMap_cons,
              List.drop_append_of_le_length (by omega), List.drop_append_of_le_length (by omega),
              List.take_append_of_le_length (by rw [List.length_drop]; omega),
              List.take_append_of_le_length (by rw [List.length_drop]; omega)]
          have hsize := length_ipovly nxt len hlong
          have hadd := addWords_holds be hzero (k := 10) (w := ipovly nxt len m.data)
            (by rw [hsize]) (by decide)
          rw [List.take_of_length_le (by rw [hsize]), Nat.zero_add, sumAt_ipovly be nxt len hlong]
            at hadd
          refine ⟨_, _, if_pos hnxt, if_pos hnxt, ?_, ?_⟩
          · rw [hsame, pseudoHeader, List.length_append, List.length_append, List.length_take,
              List.length_take, List.length_drop, List.length_drop]
            change (_ + 4) % 2 = 0
            omega
          · rw [hsame]
            exact hadd
    · exact ⟨_, _, if_neg hnxt, if_neg hnxt, rfl, hzero.mono (by decide)⟩
  obtain ⟨acc₀, pseudo, hacc, hpseudo, heven, hholds⟩ := hstart
  obtain ⟨hskip, hhead⟩ := skip_spec off chain
  unfold in4Cksum
  dsimp only
  rw [if_neg (by rintro ⟨hnxt, hshort⟩; have := hip hnxt; omega), hacc, hpseudo]
  have hinit : (St.mk acc₀ 0 junk (skip off chain).1 len).Inv be (sumAt be false pseudo) [] :=
    ⟨iff_of_false (show (0 : Int) ≠ -1 by decide) (by decide), _, hholds.mono (by decide), .refl _⟩
  have hinv := loop_inv hinit hhead (show len ≤ _ by rw [hskip, List.length_drop]; omega)
    (show 0 + len ≤ 65535 by omega)
  change St.Inv _ _ _ ([] ++ ((bytes _).drop (skip off chain).1).take len) at hinv
  rw [hskip, List.nil_append] at hinv
  generalize loop be ⟨acc₀, 0, junk, (skip off chain).1, len⟩ (skip off chain).2 = s at hinv ⊢
  obtain ⟨hodd, y, hsum, hsame⟩ := hinv
  rw [← sumAt_append _ heven] at hsame
  have hsize : (((bytes chain).drop off).take len).length ≤ 65535 :=
    Nat.le_trans (List.length_take_le _ _) hlen
  have hlast : (if s.mlen = -1 then s.acc.add (word be s.c0 0) else s.acc).Holds
      (y + pending be s.mlen s.c0) 131073 := by
    unfold pending
    split
    · have hadd := hsum.add (word_le be s.c0 0) (by omega)
      rw [word_zero] at hadd ⊢
      exact hadd.mono (by omega)
    · exact hsum.mono (by omega)
  have hreduced := (hlast.reduce (Nat.le_refl _)).congr hsame
  exact ⟨_, rfl, hreduced.kept, value_eq hreduced⟩

/-- A packet from 10.0.0.1 to 10.0.0.2 with five bytes behind the header, at odd addresses. -/
def fivebytes : List Mbuf :=
  [⟨64, [0x45, 0, 0, 25, 0, 1, 0, 0, 64, 17, 0, 0, 10, 0, 0, 1, 10, 0, 0, 2]⟩, ⟨101, [1, 2, 3]⟩,
    ⟨7, []⟩, ⟨31, [4, 5]⟩]

theorem in4_cksum_fivebytes : ∃ r, in4Cksum false 0 fivebytes 17 20 5 = some r ∧ r.lost = false ∧
    r.value = cksum false ((if (17 : UInt8) ≠ 0 then pseudoHeader (bytes fivebytes) 17 5 else []) ++
      ((bytes fivebytes).drop 20).take 5) :=
  in4_cksum_eq false 0 fivebytes 17 20 5 (by decide) (by decide) (fun _ => by decide)

/-- With the IP header in two mbufs there is no checksum but a panic. -/
theorem in4_cksum_short :
    20 + 8 ≤ (bytes [⟨0, List.replicate 12 1⟩, ⟨0, List.replicate 16 1⟩]).length ∧
      in4Cksum false 0 [⟨0, List.replicate 12 1⟩, ⟨0, List.replicate 16 1⟩] 6 20 8 = none :=
  ⟨by decide, rfl⟩

end Obsd.In4Cksum
