import Obsd.Bitmap
import Obsd.RingBuf

/-!
# Character lists of terminals

The clists of `tty_subr.c` are ring buffers, with a second array that has a
bit for each character that was quoted. A list with `c_cc` characters has
the first at `c_cf` and the next free place at `c_cl`; when it is full the
two are equal, and when it is empty both are null.

Pointers are offsets from `c_cs`, and the arrays are functions of the
offset. A function of the code that would touch a byte outside of them, or
go through a null pointer, has no result here. A character is a byte with
its `TTY_QUOTE`; counts that are not positive move nothing, like 0.
-/

namespace Obsd.Tty

/-! ## The code -/

/-- A character, and whether `TTY_QUOTE` is set on it. -/
abbrev Chr := UInt8 × Bool

/-- A `struct clist` that was made by `clalloc`. -/
structure Clist where
  cc : Nat
  cn : Nat
  cf : Option Nat
  cl : Option Nat
  cs : Nat → UInt8
  cq : Option (Nat → BitVec 8)

/-- `QMEM`: the bytes that `n` bits take. -/
def qmem (n : Nat) : Nat := (n - 1) / 8 + 1

def clalloc (size : Nat) (quot : Bool) : Clist :=
  { cc := 0, cn := size, cf := none, cl := none, cs := fun _ => 0
    cq := if quot then some fun _ => 0#8 else none }

/-- `isset`, on a list that may have no quote bits. -/
def isset (q : Clist) (i : Nat) : Option Bool :=
  match q.cq with
  | none => some false
  | some map => if i / 8 < qmem q.cn then some (Bitmap.bit map i) else none

def clrbit (q : Clist) (i : Nat) : Option Clist :=
  match q.cq with
  | none => some q
  | some map => if i / 8 < qmem q.cn then some { q with cq := some (Bitmap.clear map i) } else none

def setbit (q : Clist) (i : Nat) : Option Clist :=
  match q.cq with
  | none => some q
  | some map => if i / 8 < qmem q.cn then some { q with cq := some (Bitmap.set map i) } else none

/-- The bit of a character that is put. -/
def markbit (q : Clist) (i : Nat) (quote : Bool) : Option Clist := if quote then setbit q i else clrbit q i

/-- `cp[i] &= mask`, in an array of `size` bytes. -/
def andByte (size : Nat) (cp : Nat → BitVec 8) (i : Nat) (mask : BitVec 8) : Option (Nat → BitVec 8) :=
  if i < size then some (Bitmap.setWord cp i (cp i &&& mask)) else none

/-- The loop of `clrbits`: `k` bytes from `i` on. -/
def zeroBytes (size : Nat) : Nat → Nat → (Nat → BitVec 8) → Option (Nat → BitVec 8)
  | 0, _, cp => some cp
  | k + 1, i, cp => if i < size then zeroBytes size k (i + 1) (Bitmap.setWord cp i 0#8) else none

/-- `(1 << k) - 1` -/
def lowMask (k : Nat) : BitVec 8 := (1#8 <<< k) - 1#8

def clrbitsBytes (size : Nat) (cp : Nat → BitVec 8) (off len : Nat) : Option (Nat → BitVec 8) :=
  if len = 1 then
    if off / 8 < size then some (Bitmap.clear cp off) else none
  else
    let sby := off / 8
    let sbi := off % 8
    let eby := (off + len) / 8
    let ebi := (off + len) % 8
    if sby = eby then andByte size cp sby (~~~(lowMask (ebi - sbi) <<< sbi))
    else do
      let cp ← andByte size cp sby (lowMask sbi)
      let cp ← zeroBytes size (eby - (sby + 1)) (sby + 1) cp
      -- if no mask, eby may be 1 too far
      if lowMask ebi ≠ 0#8 then andByte size cp eby (~~~lowMask ebi) else some cp

def clrbits (q : Clist) (off len : Nat) : Option Clist :=
  match q.cq with
  | none => some q
  | some map => (clrbitsBytes (qmem q.cn) map off len).map fun map => { q with cq := some map }

/-- A byte of the buffer. -/
def byteAt (q : Clist) (i : Nat) : Option UInt8 := if i < q.cn then some (q.cs i) else none

def setByte (q : Clist) (i : Nat) (c : UInt8) : Option Clist :=
  if i < q.cn then some { q with cs := fun j => if j = i then c else q.cs j } else none

/-- The next place around the ring. -/
def Clist.after (q : Clist) (i : Nat) : Nat := if i = q.cn then 0 else i

/-- An empty list has null pointers. -/
def Clist.settle (q : Clist) : Clist := if q.cc = 0 then { q with cf := none, cl := none } else q

/-- `-1` is `none`. -/
def getc (q : Clist) : Option (Option Chr × Clist) :=
  if q.cc = 0 then some (none, q)
  else do
    let f ← q.cf
    let l ← q.cl
    let c ← byteAt q f
    let q ← setByte q f 0
    let quote ← isset q f
    let q ← clrbit q l
    some (some (c, quote), { q with cf := some (q.after (f + 1)), cc := q.cc - 1 }.settle)

/-- The characters up to `c_cl` or to the end of the buffer. -/
def stretch (q : Clist) (f l : Nat) : Nat := if f ≥ l then q.cn - f else l - f

/-- The bytes from `f` on are copied out and cleared. -/
def takeBytes (q : Clist) (f cc : Nat) : Option (List UInt8 × Clist) :=
  if f + cc ≤ q.cn then
    some ((List.range cc).map fun i => q.cs (f + i),
      { q with cs := fun j => if f ≤ j ∧ j < f + cc then 0 else q.cs j })
  else none

/-- The loop of `q_to_b`. Every turn moves a character, so it is over before `fuel` is. -/
def qToBLoop : (fuel count : Nat) → (p : List UInt8) → Clist → Option (List UInt8 × Clist)
  | 0, count, p, q => if count = 0 ∨ q.cc = 0 then some (p, q) else none
  | fuel + 1, count, p, q =>
    if count = 0 ∨ q.cc = 0 then some (p, q)
    else do
      let f ← q.cf
      let l ← q.cl
      let cc := min (stretch q f l) count
      let (bytes, q) ← takeBytes q f cc
      let q ← clrbits q l cc
      qToBLoop fuel (count - cc) (p ++ bytes) { q with cc := q.cc - cc, cf := some (q.after (f + cc)) }

def qToB (q : Clist) (count : Nat) : Option (List UInt8 × Clist) :=
  (qToBLoop count count [] q).map fun r => (r.1, r.2.settle)

def ndflushLoop : (fuel count : Nat) → Clist → Option Clist
  | 0, count, q => if count = 0 ∨ q.cc = 0 then some q else none
  | fuel + 1, count, q =>
    if count = 0 ∨ q.cc = 0 then some q
    else do
      let f ← q.cf
      let l ← q.cl
      let cc := min (stretch q f l) count
      ndflushLoop fuel (count - cc) { q with cc := q.cc - cc, cf := some (q.after (f + cc)) }

def ndflush (q : Clist) (count : Nat) : Option Clist :=
  if count = q.cc then some { q with cc := 0, cf := none, cl := none }
  else (ndflushLoop count count q).map Clist.settle

/-- An empty list starts at the beginning of the buffer. -/
def Clist.start (q : Clist) : Clist := if q.cc = 0 then { q with cf := some 0, cl := some 0 } else q

/-- The result is false for `-1`. -/
def putc (c : Chr) (q : Clist) : Option (Bool × Clist) :=
  if q.cc = q.cn then some (false, q)
  else do
    let q := q.start
    let l ← q.cl
    let q ← setByte q l c.1
    let q ← markbit q l c.2
    some (true, { q with cc := q.cc + 1, cl := some (q.after (l + 1)) })

/-- The bytes are copied in from `l` on. -/
def putBytes (q : Clist) (l : Nat) (p : List UInt8) : Option Clist :=
  if l + p.length ≤ q.cn then
    some { q with cs := fun j => if l ≤ j ∧ j < l + p.length then p.getD (j - l) 0 else q.cs j }
  else none

/-- The loop of `b_to_q`: what could not be moved, and the list. -/
def bToQLoop : (fuel : Nat) → (p : List UInt8) → Clist → Option (List UInt8 × Clist)
  | 0, p, q => if p = [] ∨ q.cn ≤ q.cc then some (p, q) else none
  | fuel + 1, p, q =>
    if p = [] ∨ q.cn ≤ q.cc then some (p, q)
    else do
      let f ← q.cf
      let l ← q.cl
      let cc := min (if f > l then f - l else q.cn - l) p.length
      let q ← putBytes q l (p.take cc)
      let q ← clrbits q l cc
      bToQLoop fuel (p.drop cc) { q with cc := q.cc + cc, cl := some (q.after (l + cc)) }

/-- The result is the number of bytes that are left. -/
def bToQ (p : List UInt8) (q : Clist) : Option (Nat × Clist) :=
  if p = [] then some (0, q)
  else if q.cc = q.cn then some (p.length, q)
  else (bToQLoop p.length p q.start).map fun r => (r.1.length, r.2)

def unputc (q : Clist) : Option (Option Chr × Clist) :=
  if q.cc = 0 then some (none, q)
  else do
    let l ← q.cl
    let l := if l = 0 then q.cn - 1 else l - 1
    let c ← byteAt q l
    let quote ← isset q l
    some (some (c, quote), { q with cl := some l, cc := q.cc - 1 }.settle)

/-- A character where a scan is, and the pointer for the next call. -/
def charAt (q : Clist) (cp : Nat) : Option (Chr × Nat) := do
  let c ← byteAt q cp
  let quote ← isset q cp
  some ((c, quote), cp)

/-- The static `cc`, and the character with its pointer unless the list is empty. -/
def firstc (q : Clist) : Option (Nat × Option (Chr × Nat)) :=
  if q.cc = 0 then some (0, none)
  else do
    let cp ← q.cf
    let r ← charAt q cp
    some (q.cc, some r)

def nextc (q : Clist) (cc cp : Nat) : Option (Nat × Option (Chr × Nat)) :=
  let cc := if q.cf = some cp then q.cc else cc
  if cc = 0 then some (cc, none)
  else if cc - 1 = 0 then some (cc - 1, none)
  else do
    let r ← charAt q (q.after (cp + 1))
    some (cc - 1, some r)

/-- `nextc` again and again, until it returns null. -/
def scanLoop (q : Clist) : (fuel cc cp : Nat) → Option (List Chr)
  | 0, _, _ => none
  | fuel + 1, cc, cp => do
    match ← nextc q cc cp with
    | (_, none) => some []
    | (cc, some (c, cp)) => (scanLoop q fuel cc cp).map (c :: ·)

/-- `firstc` followed by repeated `nextc`. -/
def scan (q : Clist) : Option (List Chr) := do
  match ← firstc q with
  | (_, none) => some []
  | (cc, some (c, cp)) => (scanLoop q q.cc cc cp).map (c :: ·)

/-- The loop of `catq`. -/
def catqLoop : (fuel : Nat) → (src dst : Clist) → Option (Clist × Clist)
  | 0, _, _ => none
  | fuel + 1, src, dst => do
    match ← getc src with
    | (none, src) => some (src, dst)
    | (some c, src) =>
      let (_, dst) ← putc c dst
      catqLoop fuel src dst

def catq (src dst : Clist) : Option (Clist × Clist) :=
  if src.cc = 0 then some (src, dst)
  else if dst.cc = 0 ∧ src.cn = dst.cn then some (dst, src)
  else catqLoop (src.cc + 1) src dst

/-! ## Clearing quote bits in bulk -/

open Bitmap (bit setWord)

theorem getLsbD_lowMask : ∀ k b : Fin 8, (lowMask k.val).getLsbD b.val = decide (b.val < k.val) := by
  decide +kernel

theorem getLsbD_midMask : ∀ s e b : Fin 8,
    (lowMask (e.val - s.val) <<< s.val).getLsbD b.val = decide (s.val ≤ b.val ∧ b.val < e.val) := by
  decide +kernel

theorem lowMask_eq_zero : ∀ k : Fin 8, lowMask k.val = 0#8 ↔ k.val = 0 := by
  decide +kernel

/-- Bit `n` of a map with another byte in place `i`. -/
theorem bit_setWord (map : Nat → BitVec 8) (i n : Nat) (v : BitVec 8) :
    bit (setWord map i v) n = if n / 8 = i then v.getLsbD (n % 8) else bit map n := by
  unfold bit setWord
  split <;> rfl

theorem bit_andByte {size i : Nat} {cp cp' : Nat → BitVec 8} {mask : BitVec 8}
    (h : andByte size cp i mask = some cp') (n : Nat) :
    bit cp' n = (bit cp n && (decide (n / 8 ≠ i) || mask.getLsbD (n % 8))) := by
  unfold andByte at h
  split at h
  · obtain rfl := Option.some.inj h
    rw [bit_setWord]
    split
    · rename_i hn
      simp [bit, hn]
    · rename_i hn
      simp [hn]
  · cases h

theorem andByte_some {size i : Nat} (cp : Nat → BitVec 8) (mask : BitVec 8) (h : i < size) :
    ∃ cp', andByte size cp i mask = some cp' := ⟨_, if_pos h⟩

theorem zeroBytes_spec (size k i : Nat) (cp : Nat → BitVec 8) (h : k = 0 ∨ i + k ≤ size) :
    ∃ cp', zeroBytes size k i cp = some cp'
      ∧ ∀ n, bit cp' n = (bit cp n && !decide (i ≤ n / 8 ∧ n / 8 < i + k)) := by
  induction k generalizing i cp with
  | zero =>
    refine ⟨cp, rfl, fun n => ?_⟩
    have hno : ¬(i ≤ n / 8 ∧ n / 8 < i + 0) := by omega
    rw [decide_eq_false hno, Bool.not_false, Bool.and_true]
  | succ k ih =>
    obtain ⟨cp', hcp', hbit⟩ := ih (i + 1) (setWord cp i 0#8) (by omega)
    refine ⟨cp', ?_, fun n => ?_⟩
    · rw [zeroBytes, if_pos (by omega), hcp']
    · rw [hbit, bit_setWord]
      by_cases hn : n / 8 = i
      · rw [if_pos hn, BitVec.getLsbD_zero, Bool.false_and, decide_eq_true (by omega : i ≤ n / 8 ∧ n / 8 < i + (k + 1)),
          Bool.not_true, Bool.and_false]
      · rw [if_neg hn]
        have hiff : (i + 1 ≤ n / 8 ∧ n / 8 < i + 1 + k) ↔ (i ≤ n / 8 ∧ n / 8 < i + (k + 1)) := by omega
        rw [decide_eq_decide.mpr hiff]

/-- As long as the last bit is in the array, exactly the bits asked for are cleared. -/
theorem clrbitsBytes_spec {size off len : Nat} (cp : Nat → BitVec 8) (hlen : 0 < len)
    (hsize : (off + len - 1) / 8 < size) :
    ∃ cp', clrbitsBytes size cp off len = some cp'
      ∧ ∀ n, bit cp' n = (bit cp n && !decide (off ≤ n ∧ n < off + len)) := by
  unfold clrbitsBytes
  by_cases h1 : len = 1
  · rw [if_pos h1, if_pos (by omega : off / 8 < size)]
    refine ⟨_, rfl, fun n => ?_⟩
    have hiff : n = off ↔ (off ≤ n ∧ n < off + len) := by omega
    rw [Bitmap.bit_clear (by decide), decide_eq_decide.mpr hiff]
  · rw [if_neg h1]
    have hsbi : off % 8 < 8 := Nat.mod_lt _ (by decide)
    have hebi : (off + len) % 8 < 8 := Nat.mod_lt _ (by decide)
    by_cases hby : off / 8 = (off + len) / 8
    · rw [if_pos hby]
      obtain ⟨cp', hcp'⟩ := andByte_some cp (~~~(lowMask ((off + len) % 8 - off % 8) <<< (off % 8)))
        (by omega : off / 8 < size)
      refine ⟨cp', hcp', fun n => ?_⟩
      have hn : n % 8 < 8 := Nat.mod_lt _ (by decide)
      have hmask := getLsbD_midMask ⟨_, hsbi⟩ ⟨_, hebi⟩ ⟨_, hn⟩
      rw [bit_andByte hcp', BitVec.getLsbD_not, decide_eq_true hn, Bool.true_and]
      rw [hmask]
      congr 1
      rw [Bool.eq_iff_iff]
      simp only [Bool.or_eq_true, decide_eq_true_eq, Bool.not_eq_true', decide_eq_false_iff_not]
      omega
    · rw [if_neg hby]
      obtain ⟨cp₁, hcp₁⟩ := andByte_some cp (lowMask (off % 8)) (by omega : off / 8 < size)
      obtain ⟨cp₂, hcp₂, hbit₂⟩ := zeroBytes_spec size ((off + len) / 8 - (off / 8 + 1))
        (off / 8 + 1) cp₁ (by omega)
      have hbits : ∀ n, bit cp₂ n = (bit cp n && !decide (off ≤ n ∧ n / 8 < (off + len) / 8)) := by
        intro n
        have hn : n % 8 < 8 := Nat.mod_lt _ (by decide)
        have hmask := getLsbD_lowMask ⟨_, hsbi⟩ ⟨_, hn⟩
        rw [hbit₂, bit_andByte hcp₁]
        rw [hmask, Bool.and_assoc]
        congr 1
        rw [Bool.eq_iff_iff]
        simp only [Bool.and_eq_true, Bool.or_eq_true, decide_eq_true_eq, Bool.not_eq_true',
          decide_eq_false_iff_not]
        omega
      by_cases hz : (off + len) % 8 = 0
      · refine ⟨cp₂, ?_, fun n => ?_⟩
        · rw [hcp₁]
          simp only [Option.bind_eq_bind, Option.bind_some, hcp₂]
          rw [if_neg (not_not.mpr ((lowMask_eq_zero ⟨_, hebi⟩).mpr hz))]
        · rw [hbits]
          have hiff : (off ≤ n ∧ n / 8 < (off + len) / 8) ↔ (off ≤ n ∧ n < off + len) := by omega
          rw [decide_eq_decide.mpr hiff]
      · obtain ⟨cp₃, hcp₃⟩ := andByte_some cp₂ (~~~lowMask ((off + len) % 8))
          (by omega : (off + len) / 8 < size)
        refine ⟨cp₃, ?_, fun n => ?_⟩
        · rw [hcp₁]
          simp only [Option.bind_eq_bind, Option.bind_some, hcp₂]
          rw [if_pos fun h0 => hz ((lowMask_eq_zero ⟨_, hebi⟩).mp h0), hcp₃]
        · have hn : n % 8 < 8 := Nat.mod_lt _ (by decide)
          have hmask := getLsbD_lowMask ⟨_, hebi⟩ ⟨_, hn⟩
          rw [bit_andByte hcp₃, hbits, BitVec.getLsbD_not, decide_eq_true hn, Bool.true_and]
          rw [hmask, Bool.and_assoc]
          congr 1
          rw [Bool.eq_iff_iff]
          simp only [Bool.and_eq_true, Bool.or_eq_true, decide_eq_true_eq, Bool.not_eq_true',
            decide_eq_false_iff_not]
          omega

end Obsd.Tty
