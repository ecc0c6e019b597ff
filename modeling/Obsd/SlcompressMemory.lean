import Obsd.Slcompress

/-!
# What decompression touches

`sl_uncompress_tcp_core` on memory: the frame is at `buf`, of which `buflen`
bytes are its own and what is behind them may be anything; the saved headers
are arrays of bytes. Every byte of the frame that is read, every element of
`rstate` that is used and every header byte that is written is noted down.

The states and the headers are never left, since the state index is checked
when it comes in and the offsets into a saved header come from a nibble.
The frame is: the length is looked at after the changes have been decoded,
and the protocol field before any.
-/

namespace Obsd.SlMem

open Slc (Byte maxStates maxHdr ipprotoTcp newC newI newS newA newW newU tcpPushBit specialI specialD
  specialsMask)

/-! ## The code -/

/-- A `struct cstate` of the receiving end. -/
structure Cstate where
  hdr : Nat → Byte
  hlen : BitVec 16

/-- The receiving half of `struct slcompress`. -/
structure Comp where
  rstate : Nat → Cstate
  lastRecv : Byte
  toss : Bool

/-- `sl_compress_setup` -/
def setup : Comp := ⟨fun _ => ⟨fun _ => 0, 0⟩, 255, true⟩

/-- What `sl_uncompress_tcp_core` is given: the memory from `buf` on, and three numbers. -/
structure Frame where
  mem : Nat → Byte
  buflen : Nat
  totalLen : Int
  type : BitVec 32

/-- The string of bytes that was received. -/
def Frame.bytes (f : Frame) : List Byte := (List.range' 0 f.buflen).map f.mem

def typeUncompressedTcp : BitVec 32 := 0x70

def typeCompressedTcp : BitVec 32 := 0x80

/-- The function on its way: where `cp` is, and what was touched so far. -/
structure Run where
  comp : Comp
  mem : Nat → Byte
  cp : Nat
  /-- Bytes of the frame that were read. -/
  reads : List Nat
  /-- Elements of `rstate` that were used. -/
  states : List Nat
  /-- Bytes of saved headers that were written. -/
  writes : List Nat

namespace Run

/-- `buf[i]` -/
def read (s : Run) (i : Nat) : Byte × Run := (s.mem i, { s with reads := s.reads ++ [i] })

/-- `*cp++` -/
def next (s : Run) : Byte × Run := (s.mem s.cp, { s with reads := s.reads ++ [s.cp], cp := s.cp + 1 })

/-- `comp->rstate[cs]` -/
def useState (s : Run) (cs : Nat) : Run := { s with states := s.states ++ [cs] }

def hdr (s : Run) (cs : Nat) : Nat → Byte := (s.comp.rstate cs).hdr

/-- Bytes stored in a saved header. -/
def store (s : Run) (cs off : Nat) (bs : List Byte) : Run :=
  { s with
    comp := { s.comp with
      rstate := Function.update s.comp.rstate cs { s.comp.rstate cs with
        hdr := fun i => if off ≤ i ∧ i < off + bs.length then bs.getD (i - off) 0 else s.hdr cs i } }
    writes := s.writes ++ List.range' off bs.length }

def setHlen (s : Run) (cs : Nat) (hlen : BitVec 16) : Run :=
  { s with comp := { s.comp with
      rstate := Function.update s.comp.rstate cs { s.comp.rstate cs with hlen := hlen } } }

/-- A state index that is good clears the 'discard' flag. -/
def recv (s : Run) (id : Byte) : Run := { s with comp := { s.comp with lastRecv := id, toss := false } }

end Run

/-- The length, the element of `rstate` that `*hdrp` points into and `*hlenp`; -1 is `none`. -/
abbrev Ret := Option (Nat × Nat × BitVec 16)

/-- The `bad:` exit. -/
def bad (s : Run) : Ret × Run := (none, { s with comp := { s.comp with toss := true } })

/-- `ip_hl << 2`, from the first byte of a header. -/
def ipHl (b : Byte) : Nat := (b &&& 0xf).toNat * 4

/-- `th_off << 2` -/
def thOff (b : Byte) : Nat := (b >>> 4).toNat * 4

def get16 (hdr : Nat → Byte) (o : Nat) : BitVec 16 := hdr o ++ hdr (o + 1)

def get32 (hdr : Nat → Byte) (o : Nat) : BitVec 32 := get16 hdr o ++ get16 hdr (o + 2)

/-- `htons` -/
def be16 (v : BitVec 16) : List Byte := [v.extractLsb' 8 8, v.extractLsb' 0 8]

/-- `htonl` -/
def be32 (v : BitVec 32) : List Byte := be16 (v.extractLsb' 16 16) ++ be16 (v.extractLsb' 0 16)

/-- The number at `cp`. -/
def decodeNum (s : Run) : BitVec 16 × Run :=
  let (b, s) := s.read s.cp
  if b = 0 then
    let (b₁, s) := s.read (s.cp + 1)
    let (b₂, s) := s.read (s.cp + 2)
    (b₁ ++ b₂, { s with cp := s.cp + 3 })
  else (b.setWidth 16, { s with cp := s.cp + 1 })

/-- `DECODEU` -/
def decodeU (cs off : Nat) (s : Run) : Run :=
  let (v, s) := decodeNum s
  s.store cs off (be16 v)

/-- `DECODES` -/
def decodeS (cs off : Nat) (s : Run) : Run :=
  let (v, s) := decodeNum s
  s.store cs off (be16 (get16 (s.hdr cs) off + v))

/-- `DECODEL` -/
def decodeL (cs off : Nat) (s : Run) : Run :=
  let (v, s) := decodeNum s
  s.store cs off (be32 (get32 (s.hdr cs) off + v.setWidth 32))

/-- A bit of a byte of a saved header. -/
def setFlag (cs off : Nat) (bit : Byte) (on : Bool) (s : Run) : Run :=
  s.store cs off [if on then s.hdr cs off ||| bit else s.hdr cs off &&& ~~~bit]

def add32 (cs off : Nat) (d : BitVec 32) (s : Run) : Run :=
  s.store cs off (be32 (get32 (s.hdr cs) off + d))

/-- `if (changes & bit)` -/
def onBit (changes bit : Byte) (f : Run → Run) (s : Run) : Run := if changes &&& bit ≠ 0 then f s else s

/-- The `switch` on the special cases, with the TCP header at offset `th`. -/
def applySpecials (cs th : Nat) (changes : Byte) (s : Run) : Run :=
  let last : BitVec 32 := (get16 (s.hdr cs) 2).setWidth 32 - (s.comp.rstate cs).hlen.setWidth 32
  if changes &&& specialsMask = specialI then add32 cs (th + 4) last (add32 cs (th + 8) last s)
  else if changes &&& specialsMask = specialD then add32 cs (th + 4) last s
  else
    let s := if changes &&& newU ≠ 0 then decodeU cs (th + 18) (setFlag cs (th + 13) 0x20 true s)
      else setFlag cs (th + 13) 0x20 false s
    let s := onBit changes newW (decodeS cs (th + 14)) s
    let s := onBit changes newA (decodeL cs (th + 8)) s
    onBit changes newS (decodeL cs (th + 4)) s

def applyId (cs : Nat) (changes : Byte) (s : Run) : Run :=
  if changes &&& newI ≠ 0 then decodeS cs 4 s else s.store cs 4 (be16 (get16 (s.hdr cs) 4 + 1))

/-- The sum of the 16-bit words of a header, with the carries put back in. The words are in
host order, the low byte first. -/
def headerSum (hdr : Nat → Byte) (hlen : Nat) : BitVec 16 :=
  let sum := ((List.range (hlen / 2)).map fun i => (hdr (2 * i + 1) ++ hdr (2 * i)).toNat).sum
  let sum := sum % 0x10000 + sum / 0x10000
  BitVec.ofNat 16 (sum % 0x10000 + sum / 0x10000)

/-- The IP length and checksum. -/
def finish (f : Frame) (cs hlen : Nat) (s : Run) : Ret × Run :=
  let vjlen := s.cp
  if f.buflen < vjlen then bad s
  else
    let csHlen := (s.comp.rstate cs).hlen
    let s := s.store cs 2 (be16 (BitVec.ofInt 16 (f.totalLen + csHlen.toNat - vjlen)))
    let s := s.store cs 10 [0, 0]
    let sum := ~~~headerSum (s.hdr cs) hlen
    (some (vjlen, cs, csHlen), s.store cs 10 [sum.extractLsb' 0 8, sum.extractLsb' 8 8])

/-- The TCP checksum and the push bit. -/
def applySum (cs th : Nat) (changes : Byte) (s : Run) : Run :=
  let (s₁, s) := s.next
  let (s₂, s) := s.next
  let s := s.store cs (th + 16) [s₁, s₂]
  setFlag cs (th + 13) 0x08 (decide (changes &&& tcpPushBit ≠ 0)) s

/-- A compressed packet, when the state index is known. -/
def rebuild (f : Frame) (changes : Byte) (s : Run) : Ret × Run :=
  let cs := s.comp.lastRecv.toNat
  let s := s.useState cs
  let th := ipHl (s.hdr cs 0)
  let s := applySum cs th changes s
  let s := applySpecials cs th changes s
  let s := applyId cs changes s
  finish f cs th s

def uncompressCompressed (f : Frame) (s : Run) : Ret × Run :=
  let (changes, s) := s.next
  if changes &&& newC ≠ 0 then
    let (id, s) := s.next
    if maxStates ≤ id.toNat then bad s else rebuild f changes (s.recv id)
  else if s.comp.toss then (none, s)
  else rebuild f changes s

def uncompressUncompressed (f : Frame) (s : Run) : Ret × Run :=
  let (p, s) := s.read 9
  if maxStates ≤ p.toNat then bad s
  else
    let cs := p.toNat
    let s := (s.recv p).useState cs
    let s := { s with mem := Function.update s.mem 9 ipprotoTcp }
    let (b, s) := s.read 0
    let hlen := ipHl b
    if f.buflen < hlen + 20 then bad s
    else
      let (b, s) := s.read (hlen + 12)
      let hlen := hlen + thOff b
      if maxHdr < hlen ∨ f.buflen < hlen then bad s
      else
        -- `BCOPY`
        let s := { s with reads := s.reads ++ List.range' 0 hlen }
        let s := s.store cs 0 ((List.range' 0 hlen).map s.mem)
        (some (0, cs, BitVec.ofNat 16 hlen), s.setHlen cs (BitVec.ofNat 16 hlen))

/-- `sl_uncompress_tcp_core` -/
def slUncompressTcpCore (f : Frame) (comp : Comp) : Ret × Run :=
  let s : Run := ⟨comp, f.mem, 0, [], [], []⟩
  if f.type = typeUncompressedTcp then uncompressUncompressed f s
  else if f.type = typeCompressedTcp then uncompressCompressed f s
  else bad s

/-- The decompressor after some frames. -/
def received (fs : List Frame) : Comp :=
  fs.foldl (fun comp f => (slUncompressTcpCore f comp).2.comp) setup

/-! ## The format -/

/-- How many numbers a mask announces. -/
def changeCount (changes : Byte) : Nat :=
  let bit (b : Byte) : Nat := if changes &&& b ≠ 0 then 1 else 0
  (if changes &&& specialsMask = specialI ∨ changes &&& specialsMask = specialD then 0
    else bit newU + bit newW + bit newA + bit newS) + bit newI

/-- `n` numbers: each is one byte that is not zero, or zero and two bytes. -/
def Nums : Nat → List Byte → Prop
  | 0, l => l = []
  | _ + 1, [] => False
  | n + 1, b :: l => if b = 0 then 2 ≤ l.length ∧ Nums n (l.drop 2) else Nums n l

/-- Behind the mask and the connection number: the checksum and the changes. -/
def Body (changes : Byte) (l : List Byte) : Prop := 2 ≤ l.length ∧ Nums (changeCount changes) (l.drop 2)

/-- The number of the connection comes first. One that is no good is the end. -/
def Named (changes : Byte) : List Byte → Prop
  | [] => False
  | id :: l => if maxStates ≤ id.toNat then l = [] else Body changes l

/-- A compressed header: a mask, the number of the connection if the mask says so, checksum
and changes. Of one that is to be tossed there is just the mask. -/
def IsHeader (toss : Bool) : List Byte → Prop
  | [] => False
  | changes :: l =>
    if changes &&& newC ≠ 0 then Named changes l
    else if toss then l = []
    else Body changes l

/-- The bytes received have the entire header: of an uncompressed packet the fixed fields up to
the protocol, of a compressed one all that the mask announces. -/
def Entire (toss : Bool) (f : Frame) : Prop :=
  if f.type = typeUncompressedTcp then 10 ≤ f.buflen
  else if f.type = typeCompressedTcp then ∃ l rest, f.bytes = l ++ rest ∧ IsHeader toss l
  else True

/-! ## How far the changes go -/

/-- The length of the number at a place. -/
def numLen (mem : Nat → Byte) (cp : Nat) : Nat := if mem cp = 0 then 3 else 1

/-- The length of `n` numbers. -/
def numsLen (mem : Nat → Byte) : Nat → Nat → Nat
  | 0, _ => 0
  | n + 1, cp => numLen mem cp + numsLen mem n (cp + numLen mem cp)

variable {mem : Nat → Byte} {s s₁ s₂ : Run} {cs off k m n cp : Nat} {changes : Byte}

theorem numsLen_add (mem : Nat → Byte) (m n cp : Nat) :
    numsLen mem (m + n) cp = numsLen mem m cp + numsLen mem n (cp + numsLen mem m cp) := by
  induction m generalizing cp with
  | zero => rw [Nat.zero_add, numsLen, Nat.zero_add, Nat.add_zero]
  | succ m ih =>
    rw [Nat.add_right_comm, numsLen, numsLen, ih, Nat.add_assoc, Nat.add_assoc]

/-- The bytes from a place on. -/
theorem drop_bytes (mem : Nat → Byte) (cp m k : Nat) :
    ((List.range' cp k).map mem).drop m = (List.range' (cp + m) (k - m)).map mem := by
  rw [← List.map_drop, List.drop_range', Nat.mul_one]

theorem length_bytes (mem : Nat → Byte) (cp k : Nat) : ((List.range' cp k).map mem).length = k := by
  rw [List.length_map, List.length_range']

theorem bytes_eq_nil (mem : Nat → Byte) (cp k : Nat) : (List.range' cp k).map mem = [] ↔ k = 0 := by
  rw [List.map_eq_nil_iff, List.range'_eq_nil_iff]

/-- Some bytes are `n` numbers if they are as long as those that begin there. -/
theorem nums_iff (mem : Nat → Byte) (n cp k : Nat) :
    Nums n ((List.range' cp k).map mem) ↔ k = numsLen mem n cp := by
  induction n generalizing cp k with
  | zero => rw [Nums, numsLen, bytes_eq_nil]
  | succ n ih =>
    rw [numsLen]
    unfold numLen
    rcases k with _ | k
    · refine iff_of_false id ?_
      split <;> omega
    · rw [List.range'_succ, List.map_cons, Nums]
      by_cases hz : mem cp = 0
      · rw [if_pos hz, if_pos hz, length_bytes, drop_bytes, ih, Nat.add_assoc]
        omega
      · rw [if_neg hz, if_neg hz, ih]
        omega

/-- The length of the header that begins at `buf`. -/
def headerLen (mem : Nat → Byte) (toss : Bool) : Nat :=
  if mem 0 &&& newC ≠ 0 then
    if maxStates ≤ (mem 1).toNat then 2 else 4 + numsLen mem (changeCount (mem 0)) 4
  else if toss then 1
  else 3 + numsLen mem (changeCount (mem 0)) 3

theorem body_iff (changes : Byte) (cp k : Nat) :
    Body changes ((List.range' cp k).map mem) ↔ k = 2 + numsLen mem (changeCount changes) (cp + 2) := by
  rw [Body, length_bytes, drop_bytes, nums_iff]
  omega

theorem isHeader_iff (mem : Nat → Byte) (toss : Bool) (k : Nat) :
    IsHeader toss ((List.range' 0 k).map mem) ↔ k = headerLen mem toss := by
  unfold headerLen
  rcases k with _ | k
  · refine iff_of_false id ?_
    split <;> split <;> omega
  · rw [List.range'_succ, List.map_cons, IsHeader, Nat.zero_add]
    split
    · rcases k with _ | k
      · refine iff_of_false id ?_
        split <;> omega
      · rw [List.range'_succ, List.map_cons, Named]
        split
        · rw [bytes_eq_nil]
          omega
        · rw [body_iff]
          simp only [Nat.reduceAdd]
          omega
    · split
      · rw [bytes_eq_nil]
        omega
      · rw [body_iff]
        simp only [Nat.reduceAdd]
        omega

/-- The bytes received have the entire header if they are long enough for it. -/
theorem entire_iff (f : Frame) (toss : Bool) :
    (∃ l rest, f.bytes = l ++ rest ∧ IsHeader toss l) ↔ headerLen f.mem toss ≤ f.buflen := by
  constructor
  · rintro ⟨l, rest, hbytes, hl⟩
    have hlen := congrArg List.length hbytes
    rw [Frame.bytes, List.length_map, List.length_range', List.length_append] at hlen
    have hpre : l = (List.range' 0 l.length).map f.mem := by
      have htake := congrArg (List.take l.length) hbytes
      rw [List.take_left, Frame.bytes, ← List.map_take, List.take_range'_of_length_ge (by omega)] at htake
      exact htake.symm
    rw [hpre, isHeader_iff] at hl
    omega
  · intro hle
    refine ⟨(List.range' 0 (headerLen f.mem toss)).map f.mem,
      (List.range' (0 + headerLen f.mem toss) (f.buflen - headerLen f.mem toss)).map f.mem, ?_,
      (isHeader_iff f.mem toss _).mpr rfl⟩
    rw [Frame.bytes, ← List.map_append, List.range'_append_1, Nat.add_sub_cancel' hle]

/-! ## What a piece of the code touches -/

/-- A piece of the code reads the next `k` bytes of the frame and goes past them; it uses
states and writes to headers inside their bounds. -/
structure Goes (k : Nat) (s s' : Run) : Prop where
  mem : s'.mem = s.mem
  cp : s'.cp = s.cp + k
  reads : s'.reads = s.reads ++ List.range' s.cp k
  lastRecv : s'.comp.lastRecv = s.comp.lastRecv
  toss : s'.comp.toss = s.comp.toss
  states : ∀ i ∈ s'.states, i ∈ s.states ∨ i < maxStates
  writes : ∀ i ∈ s'.writes, i ∈ s.writes ∨ i < maxHdr

theorem Goes.trans (h₁ : Goes k s s₁) (h₂ : Goes n s₁ s₂) : Goes (k + n) s s₂ where
  mem := h₂.mem.trans h₁.mem
  cp := by rw [h₂.cp, h₁.cp, Nat.add_assoc]
  reads := by rw [h₂.reads, h₁.reads, h₁.cp, List.append_assoc, List.range'_append_1]
  lastRecv := h₂.lastRecv.trans h₁.lastRecv
  toss := h₂.toss.trans h₁.toss
  states i hi := (h₂.states i hi).elim (h₁.states i) .inr
  writes i hi := (h₂.writes i hi).elim (h₁.writes i) .inr

/-- A piece that decodes no number, before or after one that does. -/
theorem Goes.trans_zero (h₁ : Goes k s s₁) (h₂ : Goes 0 s₁ s₂) : Goes k s s₂ := h₁.trans h₂

theorem goes_refl (s : Run) : Goes 0 s s :=
  ⟨rfl, rfl, (List.append_nil _).symm, rfl, rfl, fun _ => .inl, fun _ => .inl⟩

theorem goes_next (s : Run) : Goes 1 s s.next.2 :=
  ⟨rfl, rfl, rfl, rfl, rfl, fun _ => .inl, fun _ => .inl⟩

theorem goes_useState (s : Run) (h : cs < maxStates) : Goes 0 s (s.useState cs) := by
  refine ⟨rfl, rfl, (List.append_nil _).symm, rfl, rfl, fun i hi => ?_, fun _ => .inl⟩
  rcases List.mem_append.mp hi with hi | hi
  · exact .inl hi
  · exact .inr (List.mem_singleton.mp hi ▸ h)

theorem goes_store (s : Run) (cs off : Nat) (bs : List Byte) (h : off + bs.length ≤ maxHdr) :
    Goes 0 s (s.store cs off bs) := by
  refine ⟨rfl, rfl, (List.append_nil _).symm, rfl, rfl, fun _ => .inl, fun i hi => ?_⟩
  rcases List.mem_append.mp hi with hi | hi
  · exact .inl hi
  · rw [List.mem_range'_1] at hi
    exact .inr (by omega)

theorem goes_decodeNum (s : Run) : Goes (numLen s.mem s.cp) s (decodeNum s).2 := by
  unfold decodeNum numLen
  dsimp only [Run.read]
  split
  · refine ⟨rfl, rfl, ?_, rfl, rfl, fun _ => .inl, fun _ => .inl⟩
    rw [List.append_assoc, List.append_assoc]
    rfl
  · exact ⟨rfl, rfl, rfl, rfl, rfl, fun _ => .inl, fun _ => .inl⟩

/-- The numbers of a mask, one after another. -/
def GoesNums (n : Nat) (s s' : Run) : Prop := Goes (numsLen s.mem n s.cp) s s'

theorem GoesNums.trans (h₁ : GoesNums m s s₁) (h₂ : GoesNums n s₁ s₂) : GoesNums (m + n) s s₂ := by
  rw [GoesNums, numsLen_add]
  rw [GoesNums, h₁.mem, h₁.cp] at h₂
  exact Goes.trans h₁ h₂

theorem goesNums_one (h : Goes (numLen s.mem s.cp) s s₁) : GoesNums 1 s s₁ := h

theorem goes_decodeU (s : Run) (h : off + 2 ≤ maxHdr) : GoesNums 1 s (decodeU cs off s) :=
  goesNums_one ((goes_decodeNum s).trans_zero (goes_store _ cs off _ h))

theorem goes_decodeS (s : Run) (h : off + 2 ≤ maxHdr) : GoesNums 1 s (decodeS cs off s) :=
  goesNums_one ((goes_decodeNum s).trans_zero (goes_store _ cs off _ h))

theorem goes_decodeL (s : Run) (h : off + 4 ≤ maxHdr) : GoesNums 1 s (decodeL cs off s) :=
  goesNums_one ((goes_decodeNum s).trans_zero (goes_store _ cs off _ h))

theorem goes_setFlag (s : Run) (bit : Byte) (on : Bool) (h : off < maxHdr) :
    GoesNums 0 s (setFlag cs off bit on s) := goes_store s cs off _ h

theorem goes_add32 (s : Run) (d : BitVec 32) (h : off + 4 ≤ maxHdr) :
    GoesNums 0 s (add32 cs off d s) := goes_store s cs off _ h

theorem goes_onBit {f : Run → Run} (hf : ∀ s, GoesNums 1 s (f s)) (changes bit : Byte) (s : Run) :
    GoesNums (if changes &&& bit ≠ 0 then 1 else 0) s (onBit changes bit f s) := by
  unfold onBit
  split
  · exact hf s
  · exact goes_refl s

/-! ## The whole -/

theorem ipHl_le (b : Byte) : ipHl b ≤ 60 := by
  have hb : (b &&& 0xf).toNat ≤ 15 := by
    exact Nat.and_le_right
  unfold ipHl
  omega

theorem goes_applySum {th : Nat} (hth : th ≤ 60) (cs : Nat) (changes : Byte) (s : Run) :
    Goes 2 s (applySum cs th changes s) := by
  have hmax : th + 20 ≤ maxHdr := by unfold maxHdr; omega
  have hread := ((goes_next s).trans (goes_next _)).trans_zero
    (goes_store _ cs (th + 16) [s.next.1, s.next.2.next.1] (show th + 16 + 2 ≤ maxHdr by omega))
  exact hread.trans_zero (goes_setFlag _ 0x08 (decide (changes &&& tcpPushBit ≠ 0)) (by omega))

theorem goes_applySpecials {th : Nat} (hth : th ≤ 60) (cs : Nat) (changes : Byte) (s : Run) :
    GoesNums (if changes &&& specialsMask = specialI ∨ changes &&& specialsMask = specialD then 0
      else (if changes &&& newU ≠ 0 then 1 else 0) + (if changes &&& newW ≠ 0 then 1 else 0) +
        (if changes &&& newA ≠ 0 then 1 else 0) + (if changes &&& newS ≠ 0 then 1 else 0)) s
      (applySpecials cs th changes s) := by
  have hmax : th + 20 ≤ maxHdr := by unfold maxHdr; omega
  unfold applySpecials
  by_cases hI : changes &&& specialsMask = specialI
  · rw [if_pos (.inl hI), if_pos hI]
    exact (goes_add32 s _ (by omega)).trans (n := 0) (goes_add32 _ _ (by omega))
  · by_cases hD : changes &&& specialsMask = specialD
    · rw [if_pos (.inr hD), if_neg hI, if_pos hD]
      exact goes_add32 s _ (by omega)
    · rw [if_neg (not_or.mpr ⟨hI, hD⟩), if_neg hI, if_neg hD]
      have hurg : GoesNums (if changes &&& newU ≠ 0 then 1 else 0) s
          (if changes &&& newU ≠ 0 then decodeU cs (th + 18) (setFlag cs (th + 13) 0x20 true s)
            else setFlag cs (th + 13) 0x20 false s) := by
        split
        · exact (goes_setFlag s _ _ (by omega)).trans (m := 0) (goes_decodeU _ (by omega))
        · exact goes_setFlag s _ _ (by omega)
      exact ((hurg.trans (goes_onBit (fun s => goes_decodeS s (by omega)) changes newW _)).trans
        (goes_onBit (fun s => goes_decodeL s (by omega)) changes newA _)).trans
          (goes_onBit (fun s => goes_decodeL s (by omega)) changes newS _)

theorem goes_applyId (cs : Nat) (changes : Byte) (s : Run) :
    GoesNums (if changes &&& newI ≠ 0 then 1 else 0) s (applyId cs changes s) := by
  unfold applyId
  split
  · exact goes_decodeS s (by decide)
  · exact goes_store s cs 4 _ (show 4 + 2 ≤ maxHdr by decide)

/-- A run whose states and headers are inside their bounds, and which has read the first `n`
bytes of the frame. -/
structure Bounded (n : Nat) (s : Run) : Prop where
  reads : ∀ i, i ∈ s.reads ↔ i < n
  states : ∀ i ∈ s.states, i < maxStates
  writes : ∀ i ∈ s.writes, i < maxHdr
  known : s.comp.toss = false → s.comp.lastRecv.toNat < maxStates

theorem Goes.bounded (h : Goes k s s₁) (hs : Bounded s.cp s) : Bounded (s.cp + k) s₁ where
  reads i := by
    rw [h.reads, List.mem_append, hs.reads, List.mem_range'_1]
    omega
  states i hi := (h.states i hi).elim (hs.states i) id
  writes i hi := (h.writes i hi).elim (hs.writes i) id
  known ht := by
    rw [h.lastRecv]
    exact hs.known (h.toss ▸ ht)

theorem bad_bounded (hs : Bounded n s) : Bounded n (bad s).2 :=
  ⟨hs.reads, hs.states, hs.writes, fun h => nomatch h⟩

theorem finish_bounded (f : Frame) (cs hlen : Nat) (hs : Bounded s.cp s) :
    Bounded s.cp (finish f cs hlen s).2 := by
  unfold finish
  dsimp only
  split
  · exact bad_bounded hs
  · have h₁ := goes_store s cs 2 (be16 (BitVec.ofInt 16
      (f.totalLen + (s.comp.rstate cs).hlen.toNat - s.cp))) (show 2 + 2 ≤ maxHdr by decide)
    exact ((h₁.trans_zero (goes_store _ cs 10 [0, 0] (by decide))).trans_zero
      (goes_store _ cs 10 [_, _] (show 10 + 2 ≤ maxHdr by decide))).bounded hs

theorem rebuild_bounded (f : Frame) (changes : Byte) (hs : Bounded s.cp s) (hmem : s.mem = mem)
    (hknown : s.comp.lastRecv.toNat < maxStates) :
    Bounded (s.cp + (2 + numsLen mem (changeCount changes) (s.cp + 2))) (rebuild f changes s).2 := by
  subst hmem
  unfold rebuild
  dsimp only
  generalize s.comp.lastRecv.toNat = cs at hknown ⊢
  have hth := ipHl_le ((s.useState cs).hdr cs 0)
  generalize ipHl ((s.useState cs).hdr cs 0) = th at hth ⊢
  have hsum : Goes 2 s (applySum cs th changes (s.useState cs)) :=
    (goes_useState s hknown).trans (k := 0) (goes_applySum hth cs changes _)
  generalize applySum cs th changes (s.useState cs) = s₁ at hsum ⊢
  have hnums : GoesNums (changeCount changes) s₁ (applyId cs changes (applySpecials cs th changes s₁)) :=
    (goes_applySpecials hth cs changes s₁).trans (goes_applyId cs changes _)
  rw [GoesNums, hsum.mem, hsum.cp] at hnums
  have hall := hsum.trans hnums
  rw [← hall.cp]
  refine finish_bounded f cs th ?_
  rw [hall.cp]
  exact hall.bounded hs

theorem recv_bounded {id : Byte} (hid : id.toNat < maxStates) (hs : Bounded n s) :
    Bounded n (s.recv id) := ⟨hs.reads, hs.states, hs.writes, fun _ => hid⟩

/-- `*cp++` -/
theorem next_eq (s : Run) : ∃ s', s.next = (s.mem s.cp, s') ∧ Goes 1 s s' := ⟨_, rfl, goes_next s⟩

theorem compressed_bounded (f : Frame) (hs : Bounded s.cp s) (hcp : s.cp = 0) :
    Bounded (headerLen s.mem s.comp.toss) (uncompressCompressed f s).2 := by
  obtain ⟨s₁, hnext, hgoes⟩ := next_eq s
  have hs₁ := hgoes.bounded hs
  have hcp₁ : s₁.cp = 1 := by rw [hgoes.cp, hcp]
  rw [← hgoes.cp] at hs₁
  rw [hcp] at hnext
  simp only [uncompressCompressed, hnext, headerLen, ← hgoes.toss, ← hgoes.mem]
  split
  · obtain ⟨s₂, hnext₂, hgoes₂⟩ := next_eq s₁
    have hs₂ := hgoes₂.bounded hs₁
    have hcp₂ : s₂.cp = 2 := by rw [hgoes₂.cp, hcp₁]
    rw [← hgoes₂.cp] at hs₂
    rw [hcp₁] at hnext₂
    simp only [hnext₂]
    split
    · rw [hcp₂] at hs₂
      exact bad_bounded hs₂
    · rename_i hid
      have hrecv := recv_bounded (Nat.lt_of_not_le hid) hs₂
      have hall := rebuild_bounded (s := s₂.recv (s₁.mem 1)) f (s₁.mem 0) hrecv rfl
        (Nat.lt_of_not_le hid)
      have hmem : (s₂.recv (s₁.mem 1)).mem = s₁.mem := hgoes₂.mem
      have hpos : (s₂.recv (s₁.mem 1)).cp = 2 := hcp₂
      rw [hmem, hpos, ← Nat.add_assoc] at hall
      exact hall
  · split
    · rw [hcp₁] at hs₁
      exact hs₁
    · rename_i htoss
      have hall := rebuild_bounded f (s₁.mem 0) hs₁ rfl (hs₁.known (Bool.eq_false_iff.mpr htoss))
      rw [hcp₁, ← Nat.add_assoc] at hall
      exact hall

/-! ## An uncompressed packet -/

/-- What is known of a run on an uncompressed packet: the bytes before the tenth are always
there, and the others that are read are inside. -/
structure Inside (f : Frame) (s : Run) : Prop where
  nine : 9 ∈ s.reads
  reads : ∀ i ∈ s.reads, i < 10 ∨ i < f.buflen
  states : ∀ i ∈ s.states, i < maxStates
  writes : ∀ i ∈ s.writes, i < maxHdr
  known : s.comp.toss = false → s.comp.lastRecv.toNat < maxStates

variable {f : Frame}

theorem Inside.bad (hs : Inside f s) : Inside f (bad s).2 :=
  ⟨hs.nine, hs.reads, hs.states, hs.writes, fun h => nomatch h⟩

theorem Inside.read {i : Nat} (hs : Inside f s) (hi : i < 10 ∨ i < f.buflen) :
    Inside f (s.read i).2 := by
  refine ⟨List.mem_append_left _ hs.nine, fun j hj => ?_, hs.states, hs.writes, hs.known⟩
  rcases List.mem_append.mp hj with hj | hj
  · exact hs.reads j hj
  · exact List.mem_singleton.mp hj ▸ hi

/-- The state index is good. -/
theorem Inside.recv {id : Byte} {mem : Nat → Byte} (hid : id.toNat < maxStates) (hs : Inside f s) :
    Inside f { (s.recv id).useState id.toNat with mem := mem } := by
  refine ⟨hs.nine, hs.reads, fun i hi => ?_, hs.writes, fun _ => hid⟩
  rcases List.mem_append.mp hi with hi | hi
  · exact hs.states i hi
  · exact List.mem_singleton.mp hi ▸ hid

/-- The header is copied. -/
theorem Inside.copy {hlen : Nat} {bs : List Byte} (hmax : hlen ≤ maxHdr) (hle : hlen ≤ f.buflen)
    (hbs : bs.length = hlen) (hs : Inside f s) :
    Inside f (Run.store { s with reads := s.reads ++ List.range' 0 hlen } cs 0 bs) := by
  refine ⟨List.mem_append_left _ hs.nine, fun i hi => ?_, hs.states, fun i hi => ?_, hs.known⟩
  · rcases List.mem_append.mp hi with hi | hi
    · exact hs.reads i hi
    · rw [List.mem_range'_1] at hi
      omega
  · rcases List.mem_append.mp hi with hi | hi
    · exact hs.writes i hi
    · rw [List.mem_range'_1] at hi
      omega

theorem uncompressed_inside (f : Frame) (hs : Bounded 0 s) :
    Inside f (uncompressUncompressed f s).2 := by
  have h9 : Inside f (s.read 9).2 := by
    refine ⟨List.mem_append_right _ (List.mem_singleton_self 9), fun i hi => ?_, hs.states,
      hs.writes, hs.known⟩
    rcases List.mem_append.mp hi with hi | hi
    · exact absurd ((hs.reads i).mp hi) (Nat.not_lt_zero i)
    · exact .inl (by rw [List.mem_singleton.mp hi]; decide)
  rcases hr : s.read 9 with ⟨p, s₁⟩
  rw [hr] at h9
  simp only [uncompressUncompressed, hr]
  split
  · exact h9.bad
  · rename_i hp
    have hrecv : Inside f { (s₁.recv p).useState p.toNat with
        mem := Function.update ((s₁.recv p).useState p.toNat).mem 9 ipprotoTcp } :=
      h9.recv (Nat.lt_of_not_le hp)
    generalize ({ (s₁.recv p).useState p.toNat with
      mem := Function.update ((s₁.recv p).useState p.toNat).mem 9 ipprotoTcp } : Run) = s₂ at hrecv ⊢
    have h0 := hrecv.read (i := 0) (.inl (by decide))
    rcases hr₂ : s₂.read 0 with ⟨b, s₃⟩
    rw [hr₂] at h0
    by_cases hlen : f.buflen < ipHl b + 20
    · rw [if_pos hlen]
      exact h0.bad
    · rw [if_neg hlen]
      have hoff := h0.read (i := ipHl b + 12) (.inr (by omega))
      rcases hr₃ : s₃.read (ipHl b + 12) with ⟨b', s₄⟩
      rw [hr₃] at hoff
      by_cases hfits : maxHdr < ipHl b + thOff b' ∨ f.buflen < ipHl b + thOff b'
      · rw [if_pos hfits]
        exact hoff.bad
      · rw [if_neg hfits]
        obtain ⟨hmax, hbuf⟩ := not_or.mp hfits
        have hcopy := @Inside.copy _ p.toNat _ _ _ (Nat.le_of_not_lt hmax) (Nat.le_of_not_lt hbuf)
          (length_bytes s₄.mem 0 _) hoff
        exact ⟨hcopy.nine, hcopy.reads, hcopy.states, hcopy.writes, hcopy.known⟩

/-! ## Any sequence of frames -/

/-- The state index is in range unless packets are tossed. -/
def Known (comp : Comp) : Prop := comp.toss = false → comp.lastRecv.toNat < maxStates

/-- What is touched: exactly the bytes of the header that the frame announces. -/
theorem core_touches (f : Frame) {comp : Comp} (hcomp : Known comp) :
    ((∀ i ∈ (slUncompressTcpCore f comp).2.reads, i < f.buflen) ↔ Entire comp.toss f) ∧
      (∀ i ∈ (slUncompressTcpCore f comp).2.states, i < maxStates) ∧
      (∀ i ∈ (slUncompressTcpCore f comp).2.writes, i < maxHdr) ∧
      Known (slUncompressTcpCore f comp).2.comp := by
  have hstart : Bounded 0 (⟨comp, f.mem, 0, [], [], []⟩ : Run) :=
    ⟨fun i => iff_of_false List.not_mem_nil (Nat.not_lt_zero i), nofun, nofun, hcomp⟩
  unfold slUncompressTcpCore Entire
  split
  · have hin := uncompressed_inside f hstart
    refine ⟨⟨fun hall => hall 9 hin.nine, fun hlen i hi => ?_⟩, hin.states, hin.writes, hin.known⟩
    rcases hin.reads i hi with hi | hi
    · exact Nat.lt_of_lt_of_le hi hlen
    · exact hi
  · split
    · have hall := compressed_bounded (s := ⟨comp, f.mem, 0, [], [], []⟩) f hstart rfl
      refine ⟨?_, hall.states, hall.writes, hall.known⟩
      rw [entire_iff]
      simp only [hall.reads]
      exact ⟨fun hlt => Nat.le_of_not_lt fun h => Nat.lt_irrefl _ (hlt _ h),
        fun hle i hi => Nat.lt_of_lt_of_le hi hle⟩
    · exact ⟨iff_of_true nofun trivial, nofun, nofun, fun h => nomatch h⟩

theorem received_known (fs : List Frame) : Known (received fs) := by
  have hfold : ∀ comp, Known comp →
      Known (fs.foldl (fun comp f => (slUncompressTcpCore f comp).2.comp) comp) := by
    induction fs with
    | nil => exact fun _ => id
    | cons f fs ih => exact fun comp hcomp => ih _ (core_touches f hcomp).2.2.2
  exact hfold setup fun h => nomatch h

/-- After any frames, for every frame: the states and the saved headers are not left, and the
bytes received are not left exactly if they have the entire header. -/
theorem uncompress_in_bounds_iff (fs : List Frame) (f : Frame) :
    (∀ i ∈ (slUncompressTcpCore f (received fs)).2.states, i < maxStates) ∧
      (∀ i ∈ (slUncompressTcpCore f (received fs)).2.writes, i < maxHdr) ∧
      ((∀ i ∈ (slUncompressTcpCore f (received fs)).2.reads, i < f.buflen) ↔
        Entire (received fs).toss f) :=
  have h := core_touches f (received_known fs)
  ⟨h.2.1, h.2.2.1, h.1⟩

/-- A frame of one byte, 0x40: a compressed packet that should name its connection. What is
behind it is zero. -/
def oneByte : Frame := ⟨fun i => if i = 0 then 0x40 else 0, 1, 1, typeCompressedTcp⟩

/-- Three bytes that were not received are read. -/
theorem uncompress_reads_behind :
    (slUncompressTcpCore oneByte (received [])).2.reads = [0, 1, 2, 3] ∧
      ¬ ∀ i ∈ (slUncompressTcpCore oneByte (received [])).2.reads, i < oneByte.buflen := by
  decide

end Obsd.SlMem
