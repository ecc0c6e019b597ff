import Obsd.PfCksum
import Obsd.PfLb

/-!
# Sequence numbers in SACK options

`pf_modulate_sack` of `net/pf.c` walks over the options of a TCP header and
takes `seqdiff` off both edges of each SACK block, with `pf_change_a` to fix
the checksum. An edge may be at any offset, but the fixup takes the four
bytes for two words as the checksum has them.

An edge is four bytes in the option buffer; which words `pf_change_a` sees
depends on the host.
-/

namespace Obsd.PfSack

open PfCksum (Word pfChangeA)
open PfLb (htonl)

/-! ## Words in a buffer -/

/-- `opts[]` -/
abbrev Buf := Nat → UInt8

/-- The place value of the byte at offset `i` of a word. -/
def place (bigEndian : Bool) (i : Nat) : Nat := if bigEndian then 256 ^ (3 - i) else 256 ^ i

/-- `memcpy` of a word out of the buffer. -/
def load (bigEndian : Bool) (m : Buf) (p : Nat) : BitVec 32 :=
  BitVec.ofNat 32 ((m p).toNat * place bigEndian 0 + (m (p + 1)).toNat * place bigEndian 1
    + (m (p + 2)).toNat * place bigEndian 2 + (m (p + 3)).toNat * place bigEndian 3)

/-- `memcpy` of a word into the buffer. -/
def store (bigEndian : Bool) (m : Buf) (p : Nat) (v : BitVec 32) : Buf := fun k =>
  if p ≤ k ∧ k < p + 4 then UInt8.ofNat (v.toNat / place bigEndian (k - p)) else m k

/-! ## The code -/

def tcpoptEol : UInt8 := 0
def tcpoptNop : UInt8 := 1
def tcpoptSack : UInt8 := 5
def tcpolenSack : Nat := 8
def tcpolenSacklen : Nat := tcpolenSack + 2

/-- `pf_change_a(&a, &th->th_sum, htonl(ntohl(a) - dst->seqdiff), 0)` -/
def changeEdge (bigEndian : Bool) (seqdiff a : BitVec 32) (sum : Word) : BitVec 32 × Word :=
  let r := pfChangeA a (some sum) (htonl bigEndian (htonl bigEndian a - seqdiff)) false
  (r.1, r.2.getD sum)

/-- The body of the loop over the blocks, at offset `p` of the buffer. -/
def changeBlock (bigEndian : Bool) (seqdiff : BitVec 32) (s : Buf × Word) (p : Nat) : Buf × Word :=
  let start := load bigEndian s.1 p
  let stop := load bigEndian s.1 (p + 4)
  let (start, sum) := changeEdge bigEndian seqdiff start s.2
  let (stop, sum) := changeEdge bigEndian seqdiff stop sum
  (store bigEndian (store bigEndian s.1 p start) (p + 4) stop, sum)

/-- Where the blocks of an option are: `opt + i` for `i` from 2 in steps of
`TCPOLEN_SACK`, as long as the block ends within `olen`. -/
def blocks (pos olen : Nat) : List Nat :=
  (List.range ((olen - 2) / tcpolenSack)).map fun j => pos + (2 + j * tcpolenSack)

/-- `opt` as an offset; `hlen` does not go below 0, as the loop ends there. -/
structure Walk where
  opts : Buf
  sum : Word
  pos : Nat
  hlen : Nat
  copyback : Bool

/-- How long the option is taken to be, and whether it is a SACK option with a block. -/
def optLen (m : Buf) (pos hlen : Nat) : Nat × Bool :=
  let olen := (m (pos + 1)).toNat
  if m pos = tcpoptEol ∨ m pos = tcpoptNop then (1, false)
  else if m pos = tcpoptSack then
    let olen := if olen > hlen then hlen else olen
    (if olen < 2 then 2 else olen, decide (tcpolenSacklen ≤ olen))
  else (if olen < 2 then 2 else olen, false)

/-- The loop; the fuel is a bound on the number of options. -/
def sackLoop (bigEndian : Bool) (seqdiff : BitVec 32) : Nat → Walk → Walk
  | 0, s => s
  | fuel + 1, s =>
    if s.hlen < tcpolenSacklen then s
    else
      let (olen, sack) := optLen s.opts s.pos s.hlen
      let (opts, sum) :=
        if sack then (blocks s.pos olen).foldl (changeBlock bigEndian seqdiff) (s.opts, s.sum)
        else (s.opts, s.sum)
      sackLoop bigEndian seqdiff fuel ⟨opts, sum, s.pos + olen, s.hlen - olen, s.copyback || sack⟩

/-- The options, the checksum and the return value. The options are those in the packet,
which `pf_pull_hdr` copies out and `m_copyback` puts back. -/
def pfModulateSack (bigEndian : Bool) (thOff : BitVec 4) (opts : Buf) (sum : Word)
    (seqdiff : BitVec 32) : Buf × Word × Bool :=
  let hlen : Int := thOff.toNat * 4 - 20
  if hlen < tcpolenSacklen then (opts, sum, false)
  else
    let s := sackLoop bigEndian seqdiff hlen.toNat ⟨opts, sum, 0, hlen.toNat, false⟩
    (if s.copyback then s.opts else opts, s.sum, s.copyback)

end Obsd.PfSack
