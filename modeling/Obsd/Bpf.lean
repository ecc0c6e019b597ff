import Mathlib
import Obsd.Runs

/-!
# The packet filter machine

`bpf_validate` and `bpf_filter` of `net/bpf_filter.c`. A packet is a flat
buffer, or a chain of mbufs that is passed with `buflen` 0; there is no
other sign of which it is. A step that C does not define is `undefined`, with
what was wrong about it; the value of a shift by 32 bits or more, which is
not defined either, is left to the machine, as is the width of `size_t`,
in which the bounds are checked.
-/

namespace Obsd.Bpf

/-! ## Instructions -/

/-- A `struct bpf_insn`. -/
structure Insn where
  code : BitVec 16
  jt : BitVec 8 := 0#8
  jf : BitVec 8 := 0#8
  k : BitVec 32 := 0#32
deriving DecidableEq, Repr

/-! ## The codes of `net/bpf.h` -/

def bpfClass (code : BitVec 16) : BitVec 16 := code &&& 0x07#16
def bpfLd : BitVec 16 := 0x00#16
def bpfLdx : BitVec 16 := 0x01#16
def bpfSt : BitVec 16 := 0x02#16
def bpfStx : BitVec 16 := 0x03#16
def bpfAlu : BitVec 16 := 0x04#16
def bpfJmp : BitVec 16 := 0x05#16
def bpfRet : BitVec 16 := 0x06#16
def bpfMisc : BitVec 16 := 0x07#16

def bpfW : BitVec 16 := 0x00#16
def bpfH : BitVec 16 := 0x08#16
def bpfB : BitVec 16 := 0x10#16

def bpfMode (code : BitVec 16) : BitVec 16 := code &&& 0xe0#16
def bpfImm : BitVec 16 := 0x00#16
def bpfAbs : BitVec 16 := 0x20#16
def bpfInd : BitVec 16 := 0x40#16
def bpfMem : BitVec 16 := 0x60#16
def bpfLen : BitVec 16 := 0x80#16
def bpfMsh : BitVec 16 := 0xa0#16

def bpfOp (code : BitVec 16) : BitVec 16 := code &&& 0xf0#16
def bpfAdd : BitVec 16 := 0x00#16
def bpfSub : BitVec 16 := 0x10#16
def bpfMul : BitVec 16 := 0x20#16
def bpfDiv : BitVec 16 := 0x30#16
def bpfOr : BitVec 16 := 0x40#16
def bpfAnd : BitVec 16 := 0x50#16
def bpfLsh : BitVec 16 := 0x60#16
def bpfRsh : BitVec 16 := 0x70#16
def bpfNeg : BitVec 16 := 0x80#16
def bpfJa : BitVec 16 := 0x00#16
def bpfJeq : BitVec 16 := 0x10#16
def bpfJgt : BitVec 16 := 0x20#16
def bpfJge : BitVec 16 := 0x30#16
def bpfJset : BitVec 16 := 0x40#16

def bpfSrc (code : BitVec 16) : BitVec 16 := code &&& 0x08#16
def bpfK : BitVec 16 := 0x00#16
def bpfX : BitVec 16 := 0x08#16
def bpfA : BitVec 16 := 0x10#16

def bpfTax : BitVec 16 := 0x00#16
def bpfTxa : BitVec 16 := 0x80#16

def bpfMaxinsns : Nat := 512
def bpfMemwords : Nat := 16

/-! ## Validation -/

/-- One round of the loop of `bpf_validate`, for the instruction at `i` of `len`. -/
def validInsn (bpfMaxbufsize len i : Nat) (p : Insn) : Bool :=
  let cls := bpfClass p.code
  let mode := bpfMode p.code
  let op := bpfOp p.code
  let from_ := i + 1
  if cls = bpfLd ∨ cls = bpfLdx then
    if mode = bpfImm then true
    else if mode = bpfAbs ∨ mode = bpfInd ∨ mode = bpfMsh then decide (p.k.toNat < bpfMaxbufsize)
    else if mode = bpfMem then decide (p.k.toNat < bpfMemwords)
    else decide (mode = bpfLen)
  else if cls = bpfSt ∨ cls = bpfStx then decide (p.k.toNat < bpfMemwords)
  else if cls = bpfAlu then
    if op = bpfAdd ∨ op = bpfSub ∨ op = bpfMul ∨ op = bpfOr ∨ op = bpfAnd ∨ op = bpfLsh ∨ op = bpfRsh
        ∨ op = bpfNeg then true
    else if op = bpfDiv then !(decide (bpfSrc p.code = bpfK) && decide (p.k = 0#32))
    else false
  else if cls = bpfJmp then
    if op = bpfJa then
      -- in `u_int`, where the sum may wrap
      let to_ := (from_ + p.k.toNat) % 2 ^ 32
      !(decide (to_ < from_) || decide (to_ ≥ len))
    else if op = bpfJeq ∨ op = bpfJgt ∨ op = bpfJge ∨ op = bpfJset then
      !(decide (from_ + p.jt.toNat ≥ len) || decide (from_ + p.jf.toNat ≥ len))
    else false
  else decide (cls = bpfRet ∨ cls = bpfMisc)

def bpfValidate (bpfMaxbufsize : Nat) (f : List Insn) : Bool :=
  if f.length < 1 ∨ f.length > bpfMaxinsns then false
  else
    f.zipIdx.all (fun (p, i) => validInsn bpfMaxbufsize f.length i p)
      && (f.getLast?.map fun p => decide (bpfClass p.code = bpfRet)) == some true

/-! ## Packets -/

/-- An mbuf with its data; `junk` is the byte `m_data` points to if there are none. -/
structure Mbuf where
  data : List UInt8
  junk : UInt8 := 0
deriving DecidableEq, Repr

/-- What `p` points to. -/
inductive Packet where
  | flat (p : List UInt8)
  | chain (m : List Mbuf)
deriving DecidableEq, Repr

def Packet.buflen : Packet → Nat
  | .flat p => p.length
  | .chain _ => 0

/-- What is wrong with a step that is not defined. -/
inductive Fault where
  | pc
  | scratch
  | division
  | read
deriving DecidableEq, Repr

/-- A load gives a value, ends the filter with 0, or is not defined. -/
inductive Load where
  | val (v : BitVec 32)
  | reject
  | undefined
deriving DecidableEq, Repr

/-- Bytes in network order. -/
def extract (bytes : List UInt8) : BitVec 32 :=
  bytes.foldl (fun v c => v <<< 8 ||| BitVec.ofNat 32 c.toNat) 0#32

/-- `EXTRACT_LONG`, `EXTRACT_SHORT` and a plain byte of a flat buffer. -/
def readFlat (n : Nat) (p : List UInt8) (k : Nat) : Load :=
  if k + n ≤ p.length then .val (extract ((p.drop k).take n)) else .undefined

/-- `MINDEX`: the mbuf that holds byte `k`, those behind it, and where in it. `m_len` is an
`int` and not negative. -/
def mindex : List Mbuf → Nat → Option (Mbuf × List Mbuf × Nat)
  | [], _ => none
  | m :: next, k => if k ≥ m.data.length then mindex next (k - m.data.length) else some (m, next, k)

def bpfMXword (m : List Mbuf) (k : Nat) : Load :=
  match mindex m k with
  | none => .reject
  | some (m, next, k) =>
    let cp := m.data.drop k
    if m.data.length ≥ k + 4 then .val (extract (cp.take 4))
    else
      match next with
      | [] => .reject
      | m0 :: _ =>
        if m0.data.length + m.data.length - k < 4 then .reject
        else .val (extract (cp ++ m0.data.take (4 - cp.length)))

def bpfMXhalf (m : List Mbuf) (k : Nat) : Load :=
  match mindex m k with
  | none => .reject
  | some (m, next, k) =>
    let cp := m.data.drop k
    if m.data.length ≥ k + 2 then .val (extract (cp.take 2))
    else
      match next with
      | [] => .reject
      -- the length of the next mbuf is not looked at
      | m0 :: _ => .val (extract (cp ++ [m0.data.headD m0.junk]))

def bpfMXbyte (m : List Mbuf) (k : Nat) : Load :=
  match mindex m k with
  | none => .reject
  | some (m, _, k) => .val (extract ((m.data.drop k).take 1))

inductive Size where
  | w
  | h
  | b
deriving DecidableEq, Repr

def Size.bytes : Size → Nat
  | .w => 4
  | .h => 2
  | .b => 1

/-- What is not the same everywhere. -/
structure Arch where
  sizeT : Nat
  overLsh : BitVec 32 → BitVec 32 → BitVec 32 := fun _ _ => 0#32
  overRsh : BitVec 32 → BitVec 32 → BitVec 32 := fun _ _ => 0#32

/-- The bound check: `k + sizeof(..) > buflen` in `size_t`, or `k >= buflen` of a byte. -/
def beyond (arch : Arch) (sz : Size) (k : BitVec 32) (buflen : Nat) : Bool :=
  match sz with
  | .b => decide (k.toNat ≥ buflen)
  | sz => decide ((k.toNat + sz.bytes) % 2 ^ arch.sizeT > buflen)

def loadChain (sz : Size) (m : List Mbuf) (k : Nat) : Load :=
  match sz with
  | .w => bpfMXword m k
  | .h => bpfMXhalf m k
  | .b => bpfMXbyte m k

def load (arch : Arch) (pkt : Packet) (sz : Size) (k : BitVec 32) : Load :=
  if beyond arch sz k pkt.buflen then
    if pkt.buflen ≠ 0 then .reject
    else
      match pkt with
      | .flat _ => .undefined
      | .chain m => loadChain sz m k.toNat
  else
    match pkt with
    | .flat p => readFlat sz.bytes p k.toNat
    | .chain _ => .undefined

/-! ## The switch -/

inductive Src where
  | k
  | x
deriving DecidableEq, Repr

inductive JmpOp where
  | jgt
  | jge
  | jeq
  | jset
deriving DecidableEq, Repr

inductive AluOp where
  | add
  | sub
  | mul
  | div
  | and
  | or
  | lsh
  | rsh
deriving DecidableEq, Repr

/-- The bodies of the cases of the switch. -/
inductive Body where
  | retK
  | retA
  | ldAbs (sz : Size)
  | ldInd (sz : Size)
  | ldLen
  | ldxLen
  | ldxMsh
  | ldImm
  | ldxImm
  | ldMem
  | ldxMem
  | st
  | stx
  | ja
  | jmp (op : JmpOp) (src : Src)
  | alu (op : AluOp) (src : Src)
  | neg
  | tax
  | txa
deriving DecidableEq, Repr

/-- The labels. -/
def cases : List (BitVec 16 × Body) :=
  [(bpfRet ||| bpfK, .retK), (bpfRet ||| bpfA, .retA),
    (bpfLd ||| bpfW ||| bpfAbs, .ldAbs .w), (bpfLd ||| bpfH ||| bpfAbs, .ldAbs .h),
    (bpfLd ||| bpfB ||| bpfAbs, .ldAbs .b),
    (bpfLd ||| bpfW ||| bpfLen, .ldLen), (bpfLdx ||| bpfW ||| bpfLen, .ldxLen),
    (bpfLd ||| bpfW ||| bpfInd, .ldInd .w), (bpfLd ||| bpfH ||| bpfInd, .ldInd .h),
    (bpfLd ||| bpfB ||| bpfInd, .ldInd .b),
    (bpfLdx ||| bpfMsh ||| bpfB, .ldxMsh),
    (bpfLd ||| bpfImm, .ldImm), (bpfLdx ||| bpfImm, .ldxImm),
    (bpfLd ||| bpfMem, .ldMem), (bpfLdx ||| bpfMem, .ldxMem),
    (bpfSt, .st), (bpfStx, .stx),
    (bpfJmp ||| bpfJa, .ja),
    (bpfJmp ||| bpfJgt ||| bpfK, .jmp .jgt .k), (bpfJmp ||| bpfJge ||| bpfK, .jmp .jge .k),
    (bpfJmp ||| bpfJeq ||| bpfK, .jmp .jeq .k), (bpfJmp ||| bpfJset ||| bpfK, .jmp .jset .k),
    (bpfJmp ||| bpfJgt ||| bpfX, .jmp .jgt .x), (bpfJmp ||| bpfJge ||| bpfX, .jmp .jge .x),
    (bpfJmp ||| bpfJeq ||| bpfX, .jmp .jeq .x), (bpfJmp ||| bpfJset ||| bpfX, .jmp .jset .x),
    (bpfAlu ||| bpfAdd ||| bpfX, .alu .add .x), (bpfAlu ||| bpfSub ||| bpfX, .alu .sub .x),
    (bpfAlu ||| bpfMul ||| bpfX, .alu .mul .x), (bpfAlu ||| bpfDiv ||| bpfX, .alu .div .x),
    (bpfAlu ||| bpfAnd ||| bpfX, .alu .and .x), (bpfAlu ||| bpfOr ||| bpfX, .alu .or .x),
    (bpfAlu ||| bpfLsh ||| bpfX, .alu .lsh .x), (bpfAlu ||| bpfRsh ||| bpfX, .alu .rsh .x),
    (bpfAlu ||| bpfAdd ||| bpfK, .alu .add .k), (bpfAlu ||| bpfSub ||| bpfK, .alu .sub .k),
    (bpfAlu ||| bpfMul ||| bpfK, .alu .mul .k), (bpfAlu ||| bpfDiv ||| bpfK, .alu .div .k),
    (bpfAlu ||| bpfAnd ||| bpfK, .alu .and .k), (bpfAlu ||| bpfOr ||| bpfK, .alu .or .k),
    (bpfAlu ||| bpfLsh ||| bpfK, .alu .lsh .k), (bpfAlu ||| bpfRsh ||| bpfK, .alu .rsh .k),
    (bpfAlu ||| bpfNeg, .neg), (bpfMisc ||| bpfTax, .tax), (bpfMisc ||| bpfTxa, .txa)]

def decode (code : BitVec 16) : Option Body := (cases.find? fun c => c.1 == code).map (·.2)

/-! ## The machine -/

structure State where
  pc : Nat := 0
  a : BitVec 32 := 0#32
  x : BitVec 32 := 0#32
  mem : Vector (BitVec 32) 16 := Vector.replicate 16 0#32
deriving DecidableEq, Repr

inductive Result where
  | next (s : State)
  | ret (v : BitVec 32)
  | undefined (f : Fault)
deriving DecidableEq, Repr

def Load.toA (s : State) : Load → Result
  | .val v => .next { s with pc := s.pc + 1, a := v }
  | .reject => .ret 0#32
  | .undefined => .undefined .read

/-- The header length of an IP packet. -/
def Load.toMsh (s : State) : Load → Result
  | .val v => .next { s with pc := s.pc + 1, x := (v &&& 0xf#32) <<< 2 }
  | .reject => .ret 0#32
  | .undefined => .undefined .read

def JmpOp.test (op : JmpOp) (a v : BitVec 32) : Bool :=
  match op with
  | .jgt => decide (v < a)
  | .jge => decide (v ≤ a)
  | .jeq => decide (a = v)
  | .jset => decide (a &&& v ≠ 0#32)

def runAlu (arch : Arch) (op : AluOp) (a v : BitVec 32) : BitVec 32 :=
  match op with
  | .add => a + v
  | .sub => a - v
  | .mul => a * v
  | .div => a / v
  | .and => a &&& v
  | .or => a ||| v
  | .lsh => if v.toNat < 32 then a <<< v.toNat else arch.overLsh a v
  | .rsh => if v.toNat < 32 then a >>> v.toNat else arch.overRsh a v

def Src.val (src : Src) (p : Insn) (s : State) : BitVec 32 :=
  match src with
  | .k => p.k
  | .x => s.x

/-- One case of the switch, for instruction `p`. -/
def exec (arch : Arch) (pkt : Packet) (wirelen : BitVec 32) (p : Insn) (s : State) : Body → Result
  | .retK => .ret p.k
  | .retA => .ret s.a
  | .ldAbs sz => (load arch pkt sz p.k).toA s
  | .ldInd sz => (load arch pkt sz (s.x + p.k)).toA s
  | .ldLen => .next { s with pc := s.pc + 1, a := wirelen }
  | .ldxLen => .next { s with pc := s.pc + 1, x := wirelen }
  | .ldxMsh => (load arch pkt .b p.k).toMsh s
  | .ldImm => .next { s with pc := s.pc + 1, a := p.k }
  | .ldxImm => .next { s with pc := s.pc + 1, x := p.k }
  | .ldMem =>
    match s.mem[p.k.toNat]? with
    | some v => .next { s with pc := s.pc + 1, a := v }
    | none => .undefined .scratch
  | .ldxMem =>
    match s.mem[p.k.toNat]? with
    | some v => .next { s with pc := s.pc + 1, x := v }
    | none => .undefined .scratch
  | .st =>
    if hk : p.k.toNat < 16 then .next { s with pc := s.pc + 1, mem := s.mem.set p.k.toNat s.a hk }
    else .undefined .scratch
  | .stx =>
    if hk : p.k.toNat < 16 then .next { s with pc := s.pc + 1, mem := s.mem.set p.k.toNat s.x hk }
    else .undefined .scratch
  | .ja => .next { s with pc := s.pc + 1 + p.k.toNat }
  | .jmp op src =>
    .next { s with pc := s.pc + 1 + if op.test s.a (src.val p s) then p.jt.toNat else p.jf.toNat }
  | .alu .div .x =>
    if s.x = 0#32 then .ret 0#32 else .next { s with pc := s.pc + 1, a := s.a / s.x }
  | .alu .div .k =>
    if p.k = 0#32 then .undefined .division else .next { s with pc := s.pc + 1, a := s.a / p.k }
  | .alu op src => .next { s with pc := s.pc + 1, a := runAlu arch op s.a (src.val p s) }
  | .neg => .next { s with pc := s.pc + 1, a := -s.a }
  | .tax => .next { s with pc := s.pc + 1, x := s.a }
  | .txa => .next { s with pc := s.pc + 1, a := s.x }

def step (arch : Arch) (f : List Insn) (pkt : Packet) (wirelen : BitVec 32) (s : State) : Result :=
  match f[s.pc]? with
  | none => .undefined .pc
  | some p =>
    match decode p.code with
    | none => .ret 0#32
    | some body => exec arch pkt wirelen p s body

/-- At most `fuel` steps. -/
def run (arch : Arch) (f : List Insn) (pkt : Packet) (wirelen : BitVec 32) : (fuel : Nat) → State → Result
  | 0, s => .next s
  | fuel + 1, s =>
    match step arch f pkt wirelen s with
    | .next s => run arch f pkt wirelen fuel s
    | r => r

/-- No filter means accept all. Jumps go forward, so a program ends in as many steps as it
has instructions. -/
def bpfFilter (arch : Arch) (pc : Option (List Insn)) (pkt : Packet) (wirelen : BitVec 32) : Result :=
  match pc with
  | none => .ret (BitVec.ofInt 32 (-1))
  | some f => run arch f pkt wirelen f.length {}

end Obsd.Bpf
