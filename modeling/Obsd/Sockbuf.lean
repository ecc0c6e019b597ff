import Mathlib

/-!
# Socket buffers

The socket buffers of `uipc_socket2.c`: a list of records, each a chain of
mbufs, with three counters and two cached pointers to the end. `sb_mb`,
`m_nextpkt` and `m_next` are a list of lists here; `sb_lastrecord` and
`sb_mbtail` stay pointers, since what they point to is what can go wrong.
An mbuf is known by its address, its `id`.

`none` is a `panic`, a failed `KASSERT`, a pointer that is followed to an
mbuf that is not there, or a copy outside an mbuf's storage.
-/

namespace Obsd.Sb

/-! ## Mbufs -/

def MSIZE : Nat := 256

/-- `MSIZE - sizeof(struct m_hdr)`, with 8-byte pointers. -/
def MLEN : Nat := 224

def MCLBYTES : Nat := 2048

inductive MType where
  | data | header | soname | soopts | ftable | control | oobdata
deriving DecidableEq, Repr

/-- `m_ext`: storage outside the mbuf, a cluster or memory with its own `ext_free`. -/
structure Ext where
  buf : Nat
  size : Nat
  cluster : Bool
deriving DecidableEq, Repr

/-- `m_data` is kept as an offset from the start of the storage. `pkthdr` is
`m_pkthdr.len` when `M_PKTHDR` is set. -/
structure Mbuf where
  id : Nat
  type : MType
  len : Nat
  data : Nat
  eor : Bool
  pkthdr : Option Int
  ext : Option Ext
deriving DecidableEq, Repr

/-- Where an mbuf's data lies: in its own `m_dat` or in an external buffer. -/
inductive Store where
  | dat (id : Nat)
  | ext (buf : Nat)
deriving DecidableEq, Repr

def Mbuf.store (m : Mbuf) : Store :=
  match m.ext with
  | none => .dat m.id
  | some e => .ext e.buf

def Mbuf.size (m : Mbuf) : Nat :=
  match m.ext with
  | none => MLEN
  | some e => e.size

/-- The bytes of every storage, and for every external buffer how many mbufs are on its
`ext_nextref` ring. -/
structure Mem where
  bytes : Store → Nat → UInt8
  refs : Nat → Nat

def Mem.read (mem : Mem) (st : Store) (off len : Nat) : List UInt8 :=
  (List.range len).map fun i => mem.bytes st (off + i)

def Mem.write (mem : Mem) (st : Store) (off : Nat) (p : List UInt8) : Mem :=
  { mem with
    bytes := Function.update mem.bytes st fun i =>
      if off ≤ i then (p[i - off]?).getD (mem.bytes st i) else mem.bytes st i }

/-- `m_free`. An mbuf with external storage leaves the ring. -/
def Mem.mFree (mem : Mem) (m : Mbuf) : Mem :=
  match m.ext with
  | none => mem
  | some e => { mem with refs := Function.update mem.refs e.buf (mem.refs e.buf - 1) }

/-- `M_READONLY`, with `MCLISREFERENCED` read off the ring. -/
def mReadonly (mem : Mem) (m : Mbuf) : Bool :=
  match m.ext with
  | none => false
  | some e => !e.cluster || decide (1 < mem.refs e.buf)

/-- `M_TRAILINGSPACE`. -/
def mTrailingspace (mem : Mem) (m : Mbuf) : Int :=
  if mReadonly mem m then 0 else (m.size : Int) - (m.data + m.len : Nat)

/-- `bcopy(mtod(m), mtod(n) + n->m_len, m->m_len)`. -/
def bcopy (mem : Mem) (m n : Mbuf) : Option Mem :=
  if m.data + m.len ≤ m.size ∧ n.data + n.len + m.len ≤ n.size then
    some (mem.write n.store (n.data + n.len) (mem.read m.store m.data m.len))
  else none

/-! ## The buffer -/

structure Sockbuf where
  mb : List (List Mbuf)
  cc : Nat
  datacc : Nat
  mbcnt : Nat
  hiwat : Nat
  mbmax : Nat
  lock : Bool
  lastrecord : Option Nat
  mbtail : Option Nat
deriving DecidableEq, Repr

/-- A buffer as `soreserve` leaves it. -/
def Sockbuf.empty (hiwat mbmax : Nat) : Sockbuf :=
  ⟨[], 0, 0, 0, hiwat, mbmax, false, none, none⟩

/-- What an mbuf adds to `sb_datacc`. -/
def Mbuf.datalen (m : Mbuf) : Nat :=
  if m.type ≠ .control ∧ m.type ≠ .soname then m.len else 0

/-- What an mbuf adds to `sb_mbcnt`. -/
def Mbuf.space (m : Mbuf) : Nat :=
  match m.ext with
  | none => MSIZE
  | some e => MSIZE + e.size

def sballoc (sb : Sockbuf) (m : Mbuf) : Sockbuf :=
  { sb with cc := sb.cc + m.len, datacc := sb.datacc + m.datalen, mbcnt := sb.mbcnt + m.space }

def sbfree (sb : Sockbuf) (m : Mbuf) : Sockbuf :=
  { sb with cc := sb.cc - m.len, datacc := sb.datacc - m.datalen, mbcnt := sb.mbcnt - m.space }

def sbspace (sb : Sockbuf) : Int :=
  min ((sb.hiwat : Int) - sb.cc) ((sb.mbmax : Int) - sb.mbcnt)

/-- The mbuf at an address. -/
def Sockbuf.find (sb : Sockbuf) (p : Nat) : Option Mbuf :=
  sb.mb.flatten.find? fun m => m.id = p

/-- The record that starts at an address. -/
def Sockbuf.record (sb : Sockbuf) (p : Nat) : Option (List Mbuf) :=
  sb.mb.find? fun r => r.head?.map Mbuf.id = some p

/-- Let `r` be the record after the one that starts at `p`. -/
def linkAfter (p : Nat) (r : List Mbuf) : List (List Mbuf) → Option (List (List Mbuf))
  | [] => none
  | r₀ :: rs =>
    if r₀.head?.map Mbuf.id = some p then some [r₀, r]
    else (linkAfter p r rs).map (r₀ :: ·)

/-- `SBLINKRECORD`. -/
def sblinkrecord (sb : Sockbuf) (r : List Mbuf) : Option Sockbuf :=
  match sb.lastrecord with
  | some p => (linkAfter p r sb.mb).map fun mb =>
      { sb with mb := mb, lastrecord := r.head?.map Mbuf.id }
  | none => some { sb with mb := [r], lastrecord := r.head?.map Mbuf.id }

/-! ## sbcompress -/

/-- An empty mbuf goes, unless it carries an end of record that no neighbour can take. -/
def discards (eor : Bool) (n : Option Mbuf) (m : Mbuf) (ms : List Mbuf) : Bool :=
  m.len = 0 ∧ (eor = false ∨ (ms.head?.or n).map Mbuf.type = some m.type)

/-- `m` is copied behind the data of `n`. `m_len` is unsigned, so the comparison is. -/
def absorbs (mem : Mem) (m n : Mbuf) : Bool :=
  n.eor = false ∧ m.len ≤ MCLBYTES / 4 ∧ (m.len : Int) ≤ mTrailingspace mem n % 2 ^ 32
    ∧ n.type = m.type

/-- What `sbcompress` leaves of `*n`, and the mbufs it has linked behind it. -/
structure Compressed where
  mem : Mem
  sb : Sockbuf
  n : Option Mbuf
  linked : List Mbuf

def sbcompressLoop : List Mbuf → Mem → Sockbuf → Bool → Option Mbuf → Option Compressed
  | [], mem, sb, eor, n => some ⟨mem, sb, n.map fun n => { n with eor := n.eor || eor }, []⟩
  | m :: ms, mem, sb, eor, n =>
    if discards (eor || m.eor) n m ms then
      sbcompressLoop ms (mem.mFree m)
        (if sb.lastrecord = some m.id then { sb with lastrecord := ms.head?.map Mbuf.id } else sb)
        (eor || m.eor) n
    else
      match n.filter (absorbs mem m) with
      | some n =>
        (bcopy mem m n).bind fun mem =>
          sbcompressLoop ms (mem.mFree m)
            { sb with cc := sb.cc + m.len, datacc := sb.datacc + m.datalen }
            (eor || m.eor) (some { n with len := n.len + m.len })
      | none =>
        (sbcompressLoop ms mem (sballoc { sb with mbtail := some m.id } m)
            (eor || m.eor) (some { m with eor := false })).map fun r =>
          { r with n := n, linked := r.n.toList ++ r.linked }

/-- Write `*n` back, with the linked mbufs as its `m_next`. -/
def relink (n : Mbuf) (linked : List Mbuf) : List Mbuf → List Mbuf
  | [] => []
  | m :: ms =>
    if m.id = n.id then n :: (if linked = [] then ms else linked) else m :: relink n linked ms

/-- The buffer after `sbcompress`: without an `n` the first mbuf linked becomes `sb_mb`. -/
def Compressed.place (r : Compressed) : Sockbuf :=
  match r.n with
  | some n => { r.sb with mb := r.sb.mb.map (relink n r.linked) }
  | none => if r.linked = [] then r.sb else { r.sb with mb := [r.linked] }

def sbcompress (mem : Mem) (sb : Sockbuf) (chain : List Mbuf) (n : Option Nat) :
    Option (Mem × Sockbuf) :=
  match n with
  | none => (sbcompressLoop chain mem sb false none).map fun r => (r.mem, r.place)
  | some p => (sb.find p).bind fun n =>
      (sbcompressLoop chain mem sb false (some n)).map fun r => (r.mem, r.place)

/-! ## Appending -/

/-- The first mbuf of a record hands its end of record on to the second. -/
def moveEor (m0 : Mbuf) : List Mbuf → Mbuf × List Mbuf
  | [] => (m0, [])
  | m :: ms => if m0.eor then ({ m0 with eor := false }, { m with eor := true } :: ms) else (m0, m :: ms)

def sbappendrecord (mem : Mem) (sb : Sockbuf) : List Mbuf → Option (Mem × Sockbuf)
  | [] => some (mem, sb)
  | m0 :: ms =>
    (sblinkrecord (sballoc sb m0) [(moveEor m0 ms).1]).bind fun sb =>
      sbcompress mem sb (moveEor m0 ms).2 (some m0.id)

def sbappend (mem : Mem) (sb : Sockbuf) : List Mbuf → Option (Mem × Sockbuf)
  | [] => some (mem, sb)
  | m :: ms =>
    match sb.lastrecord with
    | some p => (sb.record p).bind fun r =>
        if r.any Mbuf.eor then sbappendrecord mem sb (m :: ms)
        else sbcompress mem sb (m :: ms) (r.getLast?.map Mbuf.id)
    | none => sbcompress mem { sb with lastrecord := some m.id } (m :: ms) none

/-- The head of `sb_mb`. -/
def Sockbuf.first (sb : Sockbuf) : Option Nat :=
  (sb.mb.head?.bind List.head?).map Mbuf.id

def sbappendstream (mem : Mem) (sb : Sockbuf) (chain : List Mbuf) : Option (Mem × Sockbuf) :=
  if sb.first = sb.lastrecord then
    (sbcompress mem sb chain sb.mbtail).map fun r => (r.1, { r.2 with lastrecord := r.2.first })
  else none

/-- A record of out-of-band data: `MT_OOBDATA` comes first, control mbufs apart. -/
def oobTrain : List Mbuf → Bool
  | [] => false
  | m :: ms =>
    match m.type with
    | .oobdata => true
    | .control => oobTrain ms
    | _ => false

def sbinsertoob (mem : Mem) (sb : Sockbuf) : List Mbuf → Option (Mem × Sockbuf)
  | [] => some (mem, sb)
  | m0 :: ms =>
    let sb' := sballoc sb m0
    sbcompress mem
      { sb' with
        mb := sb.mb.takeWhile oobTrain ++ [(moveEor m0 ms).1] :: sb.mb.dropWhile oobTrain
        lastrecord := if sb.mb.dropWhile oobTrain = [] then some m0.id else sb.lastrecord }
      (moveEor m0 ms).2 (some m0.id)

/-- The value of an `int` after arithmetic with unsigned operands. -/
def toInt (x : Int) : Int := x.bmod (2 ^ 32)

/-- `asa` is the address, `sa_len` bytes long; `alloc` is what `MGET` returns. -/
def sbappendaddr (mem : Mem) (sb : Sockbuf) (asa : List UInt8) (alloc : Option Nat)
    (m0 control : List Mbuf) : Option (Bool × Mem × Sockbuf) :=
  if m0.head?.any fun m => m.pkthdr.isNone then none
  else if sbspace sb < toInt (asa.length + ((m0.head?.bind Mbuf.pkthdr).getD 0)
      + (control.map Mbuf.len).sum) then some (false, mem, sb)
  else if MLEN < asa.length then some (false, mem, sb)
  else
    match alloc with
    | none => some (false, mem, sb)
    | some id =>
      let m : Mbuf := ⟨id, .soname, asa.length, 0, false, none, none⟩
      let r := m :: (control ++ m0)
      (sblinkrecord (r.foldl sballoc sb) r).map fun sb =>
        (true, mem.write m.store 0 asa, { sb with mbtail := r.getLast?.map Mbuf.id })

def sbappendcontrol (sb : Sockbuf) (m0 control : List Mbuf) : Option (Bool × Sockbuf) :=
  if control = [] then none
  else if sbspace sb < toInt ((control.map Mbuf.len).sum + (m0.map Mbuf.len).sum) then
    some (false, sb)
  else
    (sblinkrecord ((control ++ m0).foldl sballoc sb) (control ++ m0)).map fun sb =>
      (true, { sb with mbtail := (control ++ m0).getLast?.map Mbuf.id })

/-! ## Dropping -/

/-- Where a loop over the front record stands: what is left of it, and how much to drop. -/
structure Dropping where
  mem : Mem
  sb : Sockbuf
  m : List Mbuf
  len : Nat

/-- The loop of `sbdrop` as far as the end of one record. -/
def sbdropRecord : List Mbuf → Mem → Sockbuf → Nat → Dropping
  | [], mem, sb, len => ⟨mem, sb, [], len⟩
  | m :: ms, mem, sb, len =>
    if len = 0 then ⟨mem, sb, m :: ms, 0⟩
    else if len < m.len then
      ⟨mem, { sb with
          cc := sb.cc - len
          datacc := if m.type ≠ .control ∧ m.type ≠ .soname then sb.datacc - len else sb.datacc },
        { m with len := m.len - len, data := m.data + len } :: ms, 0⟩
    else sbdropRecord ms (mem.mFree m) (sbfree sb m) (len - m.len)

/-- The loop of `sbdrop`, from record to record. -/
def sbdropLoop : List (List Mbuf) → List Mbuf → Mem → Sockbuf → Nat →
    Option (Dropping × List (List Mbuf))
  | [], m, mem, sb, len =>
    let d := sbdropRecord m mem sb len
    if d.len = 0 then some (d, []) else none
  | r :: next, m, mem, sb, len =>
    let d := sbdropRecord m mem sb len
    if d.len = 0 then some (d, r :: next) else sbdropLoop next r d.mem d.sb d.len

/-- Empty mbufs at the front of the record go too. -/
def sbdropEmpty : List Mbuf → Mem → Sockbuf → Dropping
  | [], mem, sb => ⟨mem, sb, [], 0⟩
  | m :: ms, mem, sb =>
    if m.len = 0 then sbdropEmpty ms (mem.mFree m) (sbfree sb m) else ⟨mem, sb, m :: ms, 0⟩

/-- `SB_EMPTY_FIXUP`. -/
def sbEmptyFixup (sb : Sockbuf) : Sockbuf :=
  if sb.mb = [] then { sb with mbtail := none, lastrecord := none } else sb

/-- The end of `sbdrop`: what is left of the front record and the records after it are the
buffer, and a record that is alone is the last one. -/
def sbdropEnd (m : List Mbuf) (next : List (List Mbuf)) (sb : Sockbuf) : Sockbuf :=
  let sb : Sockbuf := { sb with mb := if m = [] then next else m :: next }
  if sb.mb.length = 1 then { sb with lastrecord := sb.first } else sbEmptyFixup sb

def sbdrop (mem : Mem) (sb : Sockbuf) (len : Int) : Option (Mem × Sockbuf) :=
  (sbdropLoop sb.mb.tail (sb.mb.head?.getD []) mem sb len.toNat).map fun r =>
    let d := sbdropEmpty r.1.m r.1.mem r.1.sb
    (d.mem, sbdropEnd d.m r.2 d.sb)

def sbdroprecord (mem : Mem) (sb : Sockbuf) : Mem × Sockbuf :=
  match sb.mb with
  | [] => (mem, sbEmptyFixup sb)
  | r :: rs => (r.foldl Mem.mFree mem, sbEmptyFixup { r.foldl sbfree sb with mb := rs })

/-- `while (sb->sb_mbcnt) sbdrop(sb, (int)sb->sb_cc)`, as far as the fuel goes. -/
def sbflushLoop : Nat → Mem → Sockbuf → Option (Mem × Sockbuf)
  | 0, mem, sb => if sb.mbcnt = 0 then some (mem, sb) else none
  | fuel + 1, mem, sb =>
    if sb.mbcnt = 0 then some (mem, sb)
    else (sbdrop mem sb (toInt sb.cc)).bind fun r => sbflushLoop fuel r.1 r.2

def sbflush (fuel : Nat) (mem : Mem) (sb : Sockbuf) : Option (Mem × Sockbuf) :=
  if sb.lock then none
  else (sbflushLoop fuel mem sb).bind fun r =>
    if r.2.cc = 0 ∧ r.2.datacc = 0 ∧ r.2.mb = [] ∧ r.2.mbtail = none ∧ r.2.lastrecord = none
    then some r else none

end Obsd.Sb
