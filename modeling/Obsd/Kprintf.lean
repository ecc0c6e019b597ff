import Mathlib

/-!
# Formatted output

`kprintf` of `kern/subr_prf.c` writes text by a format and arguments;
`snprintf` has it write into a buffer and count what does not fit. A
conversion specification (`Spec`) is what the C standard has one be, and
`Spec.text` what it says of its text, but for wide characters.
`kprintf_std` compares the two. The modifiers `hh`, `j` and `t` are not known
to `kprintf`, and a zero with precision zero loses the zero of `%#o`.
-/

namespace Obsd.Kprintf

/-- An argument, by its type. `long` and the types of sizes and pointers have `w` bits. -/
inductive Arg (w : Nat) where
  | int (x : BitVec 32)
  | long (x : BitVec w)
  | quad (x : BitVec 64)
  | size (x : BitVec w)
  | ptr (x : BitVec w)
  | str (s : Option (List Char))

/-! ## The code -/

/-- `flags`, `width`, `prec` and `sign` -/
structure Conv where
  alt : Bool := false
  ladjust : Bool := false
  longint : Bool := false
  quadint : Bool := false
  shortint : Bool := false
  sizeint : Bool := false
  zeropad : Bool := false
  hexprefix : Bool := false
  width : Int := 0
  prec : Int := -1
  sign : Option Char := none

def isDigit (c : Char) : Bool := decide (48 ≤ c.toNat ∧ c.toNat ≤ 57)

/-- The loop over the digits of a number. -/
def digits : Nat → List Char → Nat × List Char
  | n, [] => (n, [])
  | n, c :: fmt => if isDigit c then digits (10 * n + (c.toNat - 48)) fmt else (n, c :: fmt)

/-- From `rflag` on, to the character of the conversion: the state, the character (NUL at the end
of the format), the rest of the format and the arguments. An `int` that overflows has no result. -/
def rflag {w : Nat} : Nat → Conv → List Char → List (Arg w) →
    Option (Conv × Char × List Char × List (Arg w))
  | 0, _, _, _ => none
  | _ + 1, st, [], args => some (st, '\x00', [], args)
  | fuel + 1, st, ' ' :: fmt, args =>
      rflag fuel { st with sign := some (st.sign.getD ' ') } fmt args
  | fuel + 1, st, '#' :: fmt, args => rflag fuel { st with alt := true } fmt args
  | fuel + 1, st, '*' :: fmt, .int x :: args =>
      if 0 ≤ x.toInt then rflag fuel { st with width := x.toInt } fmt args
      else if x.toInt = -2 ^ 31 then none
      else rflag fuel { st with width := -x.toInt, ladjust := true } fmt args
  | _ + 1, _, '*' :: _, _ => none
  | fuel + 1, st, '-' :: fmt, args => rflag fuel { st with ladjust := true } fmt args
  | fuel + 1, st, '+' :: fmt, args => rflag fuel { st with sign := some '+' } fmt args
  | fuel + 1, st, '.' :: '*' :: fmt, .int x :: args =>
      rflag fuel { st with prec := if x.toInt < 0 then -1 else x.toInt } fmt args
  | _ + 1, _, '.' :: '*' :: _, _ => none
  | fuel + 1, st, '.' :: fmt, args =>
      if (digits 0 fmt).1 < 2 ^ 31 then
        rflag fuel { st with prec := (digits 0 fmt).1 } (digits 0 fmt).2 args
      else none
  | fuel + 1, st, '0' :: fmt, args => rflag fuel { st with zeropad := true } fmt args
  | fuel + 1, st, 'h' :: fmt, args => rflag fuel { st with shortint := true } fmt args
  | fuel + 1, st, 'l' :: 'l' :: fmt, args => rflag fuel { st with quadint := true } fmt args
  | fuel + 1, st, 'l' :: fmt, args => rflag fuel { st with longint := true } fmt args
  | fuel + 1, st, 'q' :: fmt, args => rflag fuel { st with quadint := true } fmt args
  | fuel + 1, st, 'z' :: fmt, args => rflag fuel { st with sizeint := true } fmt args
  | fuel + 1, st, ch :: fmt, args =>
      if isDigit ch then
        if (digits 0 (ch :: fmt)).1 < 2 ^ 31 then
          rflag fuel { st with width := (digits 0 (ch :: fmt)).1 } (digits 0 (ch :: fmt)).2 args
        else none
      else some (st, ch, fmt, args)

/-- `SARG`, without the argument of another type that it would take for one of its own. -/
def sarg {w : Nat} (st : Conv) : List (Arg w) → Option (BitVec 64 × List (Arg w))
  | .quad x :: args => if st.quadint then some (x, args) else none
  | .long x :: args => if !st.quadint && st.longint then some (x.signExtend 64, args) else none
  | .size x :: args =>
      if !st.quadint && !st.longint && st.sizeint then some (x.signExtend 64, args) else none
  | .int x :: args =>
      if st.quadint || st.longint || st.sizeint then none
      else if st.shortint then some ((x.setWidth 16).signExtend 64, args)
      else some (x.signExtend 64, args)
  | _ => none

/-- `UARG` -/
def uarg {w : Nat} (st : Conv) : List (Arg w) → Option (BitVec 64 × List (Arg w))
  | .quad x :: args => if st.quadint then some (x, args) else none
  | .long x :: args => if !st.quadint && st.longint then some (x.setWidth 64, args) else none
  | .size x :: args =>
      if !st.quadint && !st.longint && st.sizeint then some (x.setWidth 64, args) else none
  | .int x :: args =>
      if st.quadint || st.longint || st.sizeint then none
      else if st.shortint then some ((x.setWidth 16).setWidth 64, args)
      else some (x.setWidth 64, args)
  | _ => none

inductive Base where
  | oct
  | dec
  | hex (upper : Bool)
deriving DecidableEq

def xdigs (upper : Bool) : List Char :=
  if upper then "0123456789ABCDEF".toList else "0123456789abcdef".toList

def toChar (n : Nat) : Char := Char.ofNat (n + 48)

/-- The loop `do { *--cp = ...; u /= b; } while (u);` -/
def digitLoop (b : Nat) (chr : Nat → Char) : Nat → Nat → List Char → List Char
  | 0, _, cp => cp
  | fuel + 1, u, cp =>
      if u / b = 0 then chr (u % b) :: cp
      else digitLoop b chr fuel (u / b) (chr (u % b) :: cp)

/-- The loop `while (u >= 10)` with the digit behind it. -/
def decLoop : Nat → Nat → List Char → List Char
  | 0, _, cp => cp
  | fuel + 1, u, cp =>
      if 10 ≤ u then decLoop fuel (u / 10) (toChar (u % 10) :: cp) else toChar u :: cp

def KPRINTF_BUFSIZE : Nat := 23

/-- The digits in `buf`, from `cp` on. -/
def scratch (base : Base) (st : Conv) (u : Nat) : List Char :=
  if u ≠ 0 ∨ st.prec ≠ 0 then
    match base with
    | .oct =>
        let cp := digitLoop 8 toChar 64 u []
        if st.alt ∧ cp.head? ≠ some '0' then '0' :: cp else cp
    | .dec => decLoop 64 u []
    | .hex upper => digitLoop 16 (fun d => (xdigs upper).getD d '?') 64 u []
  else []

/-- What is known when the field is written: `dprec`, the string at `cp`, and `ch`. -/
structure Field where
  st : Conv
  dprec : Int
  cp : List Char
  ch : Char

/-- From `number` on. Digits that do not fit `buf` have no result. -/
def number (base : Base) (st : Conv) (u : Nat) (ch : Char) : Option Field :=
  let cp := scratch base st u
  if cp.length ≤ KPRINTF_BUFSIZE then
    some ⟨if 0 ≤ st.prec then { st with zeropad := false } else st, st.prec, cp, ch⟩
  else none

/-- The signed conversions. -/
def signed {w : Nat} (st : Conv) (ch : Char) (args : List (Arg w)) :
    Option (Field × List (Arg w)) :=
  (sarg st args).bind fun (u, args) =>
    if u.toInt < 0 then (number .dec { st with sign := some '-' } (-u).toNat ch).map (·, args)
    else (number .dec st u.toNat ch).map (·, args)

/-- The unsigned ones. -/
def unsigned {w : Nat} (base : Base) (st : Conv) (ch : Char) (args : List (Arg w)) :
    Option (Field × List (Arg w)) :=
  (uarg st args).bind fun (u, args) =>
    (number base { st with sign := none } u.toNat ch).map (·, args)

/-- `x` and `X` -/
def hex {w : Nat} (upper : Bool) (st : Conv) (ch : Char) (args : List (Arg w)) :
    Option (Field × List (Arg w)) :=
  (uarg st args).bind fun (u, args) =>
    let st := if st.alt ∧ u ≠ 0 then { st with hexprefix := true } else st
    (number (.hex upper) { st with sign := none } u.toNat ch).map (·, args)

/-- The conversions but for `b` and `n`. What needs another argument has no result. -/
def convert {w : Nat} (st : Conv) (ch : Char) (args : List (Arg w)) :
    Option (Field × List (Arg w)) :=
  match ch, args with
  | 'c', .int x :: args =>
      some (⟨{ st with sign := none }, 0, [Char.ofNat (x.toNat % 256)], ch⟩, args)
  | 'D', args => signed { st with longint := true } ch args
  | 'd', args => signed st ch args
  | 'i', args => signed st ch args
  | 'O', args => unsigned .oct { st with longint := true } ch args
  | 'o', args => unsigned .oct st ch args
  | 'p', .ptr x :: args =>
      (number (.hex false) { st with hexprefix := true, sign := none } x.toNat 'x').map (·, args)
  | 's', .str s :: args =>
      let cp := s.getD "(null)".toList
      let size := if 0 ≤ st.prec then min st.prec.toNat cp.length else cp.length
      some (⟨{ st with sign := none }, 0, cp.take size, ch⟩, args)
  | 'U', args => unsigned .dec { st with longint := true } ch args
  | 'u', args => unsigned .dec st ch args
  | 'X', args => hex true st ch args
  | 'x', args => hex false st ch args
  | 'c', _ | 'p', _ | 's', _ | 'b', _ | 'n', _ => none
  | ch, args => some (⟨{ st with sign := none }, 0, [ch], ch⟩, args)

section Sink

variable {σ : Type} (put : σ → Char → σ)

/-- The loop `while (n-- > 0) KPRINTF_PUTCHAR(c);` -/
def putN (c : Char) : Nat → σ → σ
  | 0, s => s
  | n + 1, s => putN c n (put s c)

/-- The field: padding, prefix, zeros, and the string proper. -/
def output (f : Field) (s : σ) : σ :=
  let size : Int := f.cp.length
  let realsz := if size < f.dprec then f.dprec else size
  let realsz := if f.st.sign.isSome then realsz + 1
    else if f.st.hexprefix then realsz + 2 else realsz
  let n := (f.st.width - realsz).toNat
  let s := if !f.st.ladjust && !f.st.zeropad then putN put ' ' n s else s
  let s := match f.st.sign with
    | some c => put s c
    | none => if f.st.hexprefix then put (put s '0') f.ch else s
  let s := if !f.st.ladjust && f.st.zeropad then putN put '0' n s else s
  let s := putN put '0' (f.dprec - size).toNat s
  let s := f.cp.foldl put s
  if f.st.ladjust then putN put ' ' n s else s

/-- `kprintf`, with a sink for its characters. -/
def kprintf {w : Nat} : Nat → List Char → List (Arg w) → σ → Option σ
  | 0, _, _, _ => none
  | _ + 1, [], _, s => some s
  | fuel + 1, c :: fmt, args, s =>
      if c ≠ '%' then kprintf fuel fmt args (put s c)
      else
        match rflag (fmt.length + 1) {} fmt args with
        | none => none
        | some (st, ch, fmt, args) =>
            if ch = '\x00' then some s
            else (convert st ch args).bind fun (f, args) => kprintf fuel fmt args (output put f s)

end Sink

/-- `ret`, what is in the buffer, and how much goes in. -/
structure Out where
  ret : Nat
  buf : List Char
  room : Nat

/-- `KPRINTF_PUTCHAR` with `TOBUFONLY` and `TOCOUNT` -/
def Out.putchar (o : Out) (c : Char) : Out :=
  ⟨o.ret + 1, if o.buf.length = o.room then o.buf else o.buf ++ [c], o.room⟩

/-- What is returned, and what is written into the buffer. -/
def snprintf {w : Nat} (size : Nat) (fmt : List Char) (args : List (Arg w)) :
    Option (Nat × List Char) :=
  (kprintf Out.putchar (fmt.length + 1) fmt args ⟨0, [], if size < 1 then 0 else size - 1⟩).bind
    fun o =>
      if o.ret < 2 ^ 31 then some (o.ret, if 0 < size then o.buf ++ ['\x00'] else o.buf) else none

/-! ## The standard -/

inductive Flag where
  | minus
  | plus
  | space
  | hash
  | zero
deriving DecidableEq

def Flag.chr : Flag → Char
  | minus => '-'
  | plus => '+'
  | space => ' '
  | hash => '#'
  | zero => '0'

/-- A width or a precision: none, its digits, or `*`. -/
inductive Num where
  | none
  | lit (ds : List (Fin 10))
  | star
deriving DecidableEq

inductive Modifier where
  | none
  | hh
  | h
  | l
  | ll
  | j
  | z
  | t
deriving DecidableEq

def Modifier.chars : Modifier → List Char
  | none => []
  | hh => ['h', 'h']
  | h => ['h']
  | l => ['l']
  | ll => ['l', 'l']
  | j => ['j']
  | z => ['z']
  | t => ['t']

inductive Specifier where
  | d
  | i
  | u
  | o
  | x
  | X
  | c
  | s
  | p
  | percent
deriving DecidableEq

def Specifier.chr : Specifier → Char
  | d => 'd'
  | i => 'i'
  | u => 'u'
  | o => 'o'
  | x => 'x'
  | X => 'X'
  | c => 'c'
  | s => 's'
  | p => 'p'
  | percent => '%'

/-- A conversion specification. -/
structure Spec where
  flags : List Flag
  width : Num
  prec : Num
  mod : Modifier
  conv : Specifier
deriving DecidableEq

def digitChars (ds : List (Fin 10)) : List Char := ds.map fun d => toChar d.val

def Num.chars : Num → List Char
  | none => []
  | lit ds => digitChars ds
  | star => ['*']

/-- A precision. -/
def Num.precChars : Num → List Char
  | none => []
  | num => '.' :: num.chars

def Spec.chars (s : Spec) : List Char :=
  s.flags.map Flag.chr ++ s.width.chars ++ s.prec.precChars ++ s.mod.chars ++ [s.conv.chr]

def value (ds : List (Fin 10)) : Nat := ds.foldl (fun n d => 10 * n + d.val) 0

/-- The value of a width or a precision, if there is one. It is an `int`. -/
def Num.take {w : Nat} : Num → List (Arg w) → Option (Option Int × List (Arg w))
  | none, args => some (.none, args)
  | lit ds, args => if value ds < 2 ^ 31 then some (some (value ds), args) else .none
  | star, .int x :: args => some (some x.toInt, args)
  | star, _ => .none

/-- The argument of a signed conversion. -/
def Modifier.signed {w : Nat} : Modifier → List (Arg w) → Option (Int × List (Arg w))
  | none, .int x :: args => some (x.toInt, args)
  | hh, .int x :: args => some ((x.setWidth 8).toInt, args)
  | h, .int x :: args => some ((x.setWidth 16).toInt, args)
  | l, .long x :: args => some (x.toInt, args)
  | ll, .quad x :: args => some (x.toInt, args)
  | j, .quad x :: args => some (x.toInt, args)
  | z, .size x :: args => some (x.toInt, args)
  | t, .long x :: args => some (x.toInt, args)
  | _, _ => .none

def Modifier.unsigned {w : Nat} : Modifier → List (Arg w) → Option (Nat × List (Arg w))
  | none, .int x :: args => some (x.toNat, args)
  | hh, .int x :: args => some ((x.setWidth 8).toNat, args)
  | h, .int x :: args => some ((x.setWidth 16).toNat, args)
  | l, .long x :: args => some (x.toNat, args)
  | ll, .quad x :: args => some (x.toNat, args)
  | j, .quad x :: args => some (x.toNat, args)
  | z, .size x :: args => some (x.toNat, args)
  | t, .long x :: args => some (x.toNat, args)
  | _, _ => .none

def digitChar (upper : Bool) (d : Nat) : Char := (xdigs upper).getD d '?'

/-- The digits of a number, without any for zero. -/
def numeral (b : Nat) (upper : Bool) (n : Nat) : List Char :=
  ((Nat.digits b n).map (digitChar upper)).reverse

/-- With the number of digits that the precision asks for. -/
def withPrec (p : Nat) (ds : List Char) : List Char := List.replicate (p - ds.length) '0' ++ ds

/-- With the alternative form of octal, which makes the precision one more than the digits. -/
def octal (alt : Bool) (p n : Nat) : List Char :=
  let ds := numeral 8 false n
  withPrec (if alt ∧ p ≤ ds.length then ds.length + 1 else p) ds

/-- A field of a width, of a sign or the like and the rest. -/
def pad (minus zero : Bool) (width : Nat) (sign body : List Char) : List Char :=
  let n := width - (sign.length + body.length)
  if minus then sign ++ body ++ List.replicate n ' '
  else if zero then sign ++ List.replicate n '0' ++ body
  else List.replicate n ' ' ++ (sign ++ body)

/-- Not beginning with a zero, which is a flag. -/
def Num.isWidth : Num → Bool
  | lit [] => false
  | lit (d :: _) => d ≠ 0
  | _ => true

/-- Whether the flags, the precision and the modifier are for the conversion. -/
def Spec.proper (s : Spec) : Bool :=
  s.width.isWidth && match s.conv with
  | .d | .i | .u => decide (.hash ∉ s.flags)
  | .o | .x | .X => true
  | .c | .p => decide (.hash ∉ s.flags ∧ .zero ∉ s.flags ∧ s.prec = .none ∧ s.mod = .none)
  | .s => decide (.hash ∉ s.flags ∧ .zero ∉ s.flags ∧ s.mod = .none)
  | .percent => decide (s = ⟨[], .none, .none, .none, .percent⟩)

/-- The text of a conversion specification for the values of its width and precision, and the
arguments behind its own. -/
def Spec.body {w : Nat} (s : Spec) (width prec : Option Int) (args : List (Arg w)) :
    Option (List Char × List (Arg w)) :=
  let minus := decide (.minus ∈ s.flags) || decide (width.getD 0 < 0)
  let width := (width.getD 0).natAbs
  let prec := (prec.filter (0 ≤ ·)).map Int.toNat
  let zero := decide (.zero ∈ s.flags) && prec.isNone
  let p := prec.getD 1
  let alt := decide (.hash ∈ s.flags)
  match s.conv, args with
  | .percent, args => some (['%'], args)
  | .c, .int x :: args => some (pad minus false width [] [Char.ofNat (x.toNat % 256)], args)
  | .s, .str (some str) :: args =>
      some (pad minus false width [] (str.take (prec.getD str.length)), args)
  -- the implementation says what is written of a pointer
  | .p, .ptr x :: args =>
      some (pad minus false width ['0', 'x'] (withPrec 1 (numeral 16 false x.toNat)), args)
  | .d, args | .i, args =>
      (s.mod.signed args).map fun (v, args) =>
        let sign := if v < 0 then ['-'] else if .plus ∈ s.flags then ['+']
          else if .space ∈ s.flags then [' '] else []
        (pad minus zero width sign (withPrec p (numeral 10 false v.natAbs)), args)
  | .u, args =>
      (s.mod.unsigned args).map fun (n, args) =>
        (pad minus zero width [] (withPrec p (numeral 10 false n)), args)
  | .o, args =>
      (s.mod.unsigned args).map fun (n, args) => (pad minus zero width [] (octal alt p n), args)
  | .x, args =>
      (s.mod.unsigned args).map fun (n, args) =>
        let base := if alt ∧ n ≠ 0 then ['0', 'x'] else []
        (pad minus zero width base (withPrec p (numeral 16 false n)), args)
  | .X, args =>
      (s.mod.unsigned args).map fun (n, args) =>
        let base := if alt ∧ n ≠ 0 then ['0', 'X'] else []
        (pad minus zero width base (withPrec p (numeral 16 true n)), args)
  | _, _ => none

/-- With the width and the precision from the arguments. There is none where the behaviour is not
defined. -/
def Spec.text {w : Nat} (s : Spec) (args : List (Arg w)) : Option (List Char × List (Arg w)) :=
  (s.width.take args).bind fun (width, args) =>
    (s.prec.take args).bind fun (prec, args) =>
      if s.proper = true ∧ width ≠ some (-2 ^ 31) then s.body width prec args else none

/-- An ordinary character or a conversion specification. -/
inductive Piece where
  | chr (c : Char) (ordinary : c ≠ '%' ∧ c ≠ '\x00')
  | spec (s : Spec)

def format (pieces : List Piece) : List Char :=
  pieces.flatMap fun
    | .chr c _ => [c]
    | .spec s => '%' :: s.chars

/-- The text of a format. -/
def text {w : Nat} : List Piece → List (Arg w) → Option (List Char)
  | [], _ => some []
  | .chr c _ :: rest, args => (text rest args).map (c :: ·)
  | .spec s :: rest, args =>
      (s.text args).bind fun (t, args) => (text rest args).map (t ++ ·)

/-! ## Digits -/

theorem digitLoop_eq {b : Nat} (hb : 1 < b) (chr : Nat → Char) {fuel u : Nat} (cp : List Char)
    (hfuel : u < b ^ fuel) (hpos : 0 < u) :
    digitLoop b chr fuel u cp = ((Nat.digits b u).map chr).reverse ++ cp := by
  induction fuel generalizing u cp with
  | zero =>
      rw [Nat.pow_zero] at hfuel
      omega
  | succ fuel ih =>
      rw [digitLoop, Nat.digits_def' hb hpos, List.map_cons, List.reverse_cons, List.append_assoc]
      split
      · rename_i hlast
        rw [hlast, Nat.digits_zero]
        rfl
      · rename_i hmore
        exact ih _ ((Nat.div_lt_iff_lt_mul (Nat.lt_trans Nat.one_pos hb)).mpr hfuel)
          (Nat.pos_of_ne_zero hmore)

theorem decLoop_eq (fuel u : Nat) (cp : List Char) :
    decLoop fuel u cp = digitLoop 10 toChar fuel u cp := by
  induction fuel generalizing u cp with
  | zero => rfl
  | succ fuel ih =>
      rw [decLoop, digitLoop, ih]
      by_cases h : 10 ≤ u
      · rw [if_pos h, if_neg (by omega)]
      · rw [if_neg h, if_pos (by omega), Nat.mod_eq_of_lt (by omega)]

theorem numeral_eq {b : Nat} (hb : b = 8 ∨ b = 10) (n : Nat) :
    ((Nat.digits b n).map toChar).reverse = numeral b false n := by
  have hchr : ∀ d < 10, toChar d = digitChar false d := by decide
  rw [numeral, List.map_congr_left fun d hd => hchr d ?_]
  have hlt := Nat.digits_lt_base (by omega : 1 < b) hd
  omega

theorem numeral_zero (b : Nat) (upper : Bool) : numeral b upper 0 = [] := by
  rw [numeral, Nat.digits_zero]
  rfl

theorem numeral_length {b k : Nat} (hb : 1 < b) (upper : Bool) {n : Nat} (hn : n < b ^ k) :
    (numeral b upper n).length ≤ k := by
  rw [numeral, List.length_reverse, List.length_map]
  exact (Nat.digits_length_le_iff hb n).mpr hn

theorem numeral_pos {b : Nat} (upper : Bool) {n : Nat} (hn : 0 < n) :
    1 ≤ (numeral b upper n).length := by
  rw [numeral, List.length_reverse, List.length_map]
  exact List.length_pos_of_ne_nil (Nat.digits_ne_nil_iff_ne_zero.mpr (Nat.ne_of_gt hn))

/-- No number but zero begins with a zero. -/
theorem numeral_head {n : Nat} (hn : 0 < n) : (numeral 8 false n).head? ≠ some '0' := by
  have hchr : ∀ d < 8, d ≠ 0 → digitChar false d ≠ '0' := by decide
  have hne : Nat.digits 8 n ≠ [] := Nat.digits_ne_nil_iff_ne_zero.mpr (Nat.ne_of_gt hn)
  have hlast := Nat.getLast_digit_ne_zero 8 (Nat.ne_of_gt hn)
  have hlt := Nat.digits_lt_base (by decide : 1 < 8) (List.getLast_mem hne)
  rw [numeral, List.head?_reverse, List.getLast?_map, List.getLast?_eq_getLast_of_ne_nil hne]
  exact fun h => hchr _ hlt hlast (Option.some.inj h)

/-- The digits of a number that is not zero. -/
def Base.numeral : Base → Nat → List Char
  | .oct, n => Kprintf.numeral 8 false n
  | .dec, n => Kprintf.numeral 10 false n
  | .hex upper, n => Kprintf.numeral 16 upper n

theorem Base.numeral_length (base : Base) {n : Nat} (hn : n < 2 ^ 64) :
    (base.numeral n).length ≤ 22 := by
  cases base with
  | oct => exact Kprintf.numeral_length (by decide) _ (Nat.lt_trans hn (by decide))
  | dec => exact Kprintf.numeral_length (by decide) _ (Nat.lt_trans hn (by decide))
  | hex upper => exact Kprintf.numeral_length (by decide) _ (Nat.lt_trans hn (by decide))

theorem Base.numeral_pos (base : Base) {n : Nat} (hn : 0 < n) : 1 ≤ (base.numeral n).length := by
  cases base <;> exact Kprintf.numeral_pos _ hn

theorem scratch_pos (base : Base) (st : Conv) {u : Nat} (hu : u < 2 ^ 64) (hpos : 0 < u) :
    scratch base st u =
      if base = .oct ∧ st.alt = true then '0' :: base.numeral u else base.numeral u := by
  have h64 : ∀ {b : Nat}, 2 ≤ b → u < b ^ 64 := fun hb =>
    Nat.lt_of_lt_of_le hu (Nat.pow_le_pow_left hb 64)
  unfold scratch
  rw [if_pos (.inl (Nat.ne_of_gt hpos))]
  cases base with
  | oct =>
      have hloop := digitLoop_eq (by decide : 1 < 8) toChar [] (h64 (by decide)) hpos
      rw [List.append_nil, numeral_eq (.inl rfl)] at hloop
      simp only [hloop, true_and, numeral_head hpos, ne_eq, not_false_eq_true, and_true]
      rfl
  | dec =>
      have hloop := digitLoop_eq (by decide : 1 < 10) toChar [] (h64 (by decide)) hpos
      rw [List.append_nil, numeral_eq (.inr rfl)] at hloop
      exact (decLoop_eq 64 u []).trans hloop
  | hex upper =>
      exact (digitLoop_eq (by decide) _ [] (h64 (by decide)) hpos).trans (List.append_nil _)

theorem scratch_zero (base : Base) (st : Conv) :
    scratch base st 0 = if st.prec = 0 then [] else ['0'] := by
  unfold scratch
  by_cases h : st.prec = 0
  · rw [if_pos h, if_neg (by simp [h])]
  · rw [if_neg h, if_pos (.inr h)]
    cases base with
    | oct => exact if_neg fun h => h.2 rfl
    | dec => rfl
    | hex upper => cases upper <;> rfl

/-- The digits fit the scratch buffer. -/
theorem scratch_fits (base : Base) (st : Conv) {u : Nat} (hu : u < 2 ^ 64) :
    (scratch base st u).length ≤ KPRINTF_BUFSIZE := by
  rcases Nat.eq_zero_or_pos u with rfl | hpos
  · rw [scratch_zero]
    split <;> decide
  · have hlen := base.numeral_length hu
    rw [scratch_pos base st hu hpos]
    split
    · exact Nat.succ_le_succ hlen
    · exact Nat.le_succ_of_le hlen

/-- The leading zeros of a precision, which is -1 for none, and the string proper. -/
def zeros (dprec : Int) (cp : List Char) : List Char :=
  List.replicate (dprec - cp.length).toNat '0' ++ cp

def precOf (prec : Int) : Nat := if prec < 0 then 1 else prec.toNat

theorem zeros_withPrec {prec : Int} {ds : List Char} (hds : 1 ≤ ds.length) :
    zeros prec ds = withPrec (precOf prec) ds := by
  unfold zeros withPrec precOf
  congr 2
  split <;> omega

/-- A number that is not in the alternative form of octal. -/
theorem zeros_scratch (base : Base) (st : Conv) {u : Nat} (hu : u < 2 ^ 64)
    (halt : base = .oct → st.alt = false) :
    zeros st.prec (scratch base st u) = withPrec (precOf st.prec) (base.numeral u) := by
  rcases Nat.eq_zero_or_pos u with rfl | hpos
  · have hnone : base.numeral 0 = [] := by
      cases base <;> exact numeral_zero _ _
    rw [scratch_zero, hnone, withPrec, List.append_nil, zeros, precOf]
    by_cases h : st.prec = 0
    · rw [if_pos h, h]
      rfl
    · rw [if_neg h, ← List.replicate_succ']
      congr 1
      rw [List.length_singleton, List.length_nil]
      split <;> omega
  · have hno : ¬(base = .oct ∧ st.alt = true) := fun ⟨hb, ha⟩ => by
      rw [halt hb] at ha
      exact Bool.false_ne_true ha
    rw [scratch_pos base st hu hpos, if_neg hno, zeros_withPrec (base.numeral_pos hpos)]

/-- Octal, but for a zero with precision zero in the alternative form. -/
theorem zeros_octal (st : Conv) {u : Nat} (hu : u < 2 ^ 64)
    (hslip : ¬(st.alt = true ∧ st.prec = 0 ∧ u = 0)) :
    zeros st.prec (scratch .oct st u) = octal st.alt (precOf st.prec) u := by
  unfold octal
  cases halt : st.alt with
  | false =>
      exact zeros_scratch .oct st hu fun _ => halt
  | true =>
      rcases Nat.eq_zero_or_pos u with rfl | hpos
      · have hprec : st.prec ≠ 0 := fun h => hslip ⟨halt, h, rfl⟩
        rw [scratch_zero, if_neg hprec, numeral_zero, zeros, ← List.replicate_succ', withPrec,
          List.append_nil, List.length_nil, if_neg (by unfold precOf; split <;> omega)]
        congr 1
        rw [List.length_singleton, precOf]
        split <;> omega
      · have hone := Base.oct.numeral_pos hpos
        rw [scratch_pos .oct st hu hpos, if_pos ⟨rfl, halt⟩, zeros, withPrec, List.append_cons,
          ← List.replicate_succ']
        congr 2
        change (st.prec - ((numeral 8 false u).length + 1 : Nat)).toNat + 1 = _
        unfold precOf
        by_cases hneg : st.prec < 0
        · simp only [if_pos hneg]
          rw [if_pos ⟨trivial, hone⟩]
          omega
        · simp only [if_neg hneg, true_and]
          split <;> omega

/-! ## Fields -/

section Sink

variable {σ : Type} (put : σ → Char → σ)

theorem putN_eq (c : Char) (n : Nat) (s : σ) :
    putN put c n s = (List.replicate n c).foldl put s := by
  induction n generalizing s with
  | zero => rfl
  | succ n ih => exact ih (put s c)

/-- The prefix of a field. -/
def signChars (st : Conv) (ch : Char) : List Char :=
  match st.sign with
  | some c => [c]
  | none => if st.hexprefix then ['0', ch] else []

def Field.text (f : Field) : List Char :=
  pad f.st.ladjust f.st.zeropad f.st.width.toNat (signChars f.st f.ch) (zeros f.dprec f.cp)

theorem output_eq (f : Field) (hwidth : 0 ≤ f.st.width) (s : σ) :
    output put f s = f.text.foldl put s := by
  have hbody : ((zeros f.dprec f.cp).length : Int) =
      if (f.cp.length : Int) < f.dprec then f.dprec else f.cp.length := by
    rw [zeros, List.length_append, List.length_replicate]
    split <;> omega
  have hreal : (if f.st.sign.isSome then (if (f.cp.length : Int) < f.dprec then f.dprec
      else f.cp.length) + 1 else if f.st.hexprefix then (if (f.cp.length : Int) < f.dprec
        then f.dprec else f.cp.length) + 2
      else if (f.cp.length : Int) < f.dprec then f.dprec else f.cp.length) =
      ((signChars f.st f.ch).length + (zeros f.dprec f.cp).length : Nat) := by
    rw [← hbody, signChars]
    cases f.st.sign with
    | some c =>
        exact (Int.natCast_add 1 _ ▸ Int.add_comm _ _)
    | none =>
        cases f.st.hexprefix with
        | true => exact (Int.natCast_add 2 _ ▸ Int.add_comm _ _)
        | false => exact congrArg Nat.cast (Nat.zero_add _).symm
  have hfill :
      (f.st.width - ((signChars f.st f.ch).length + (zeros f.dprec f.cp).length : Nat)).toNat =
      f.st.width.toNat - ((signChars f.st f.ch).length + (zeros f.dprec f.cp).length) := by omega
  have hsign : ∀ s : σ, (match f.st.sign with
      | some c => put s c
      | none => if f.st.hexprefix then put (put s '0') f.ch else s) =
      (signChars f.st f.ch).foldl put s := by
    intro s
    rw [signChars]
    cases f.st.sign with
    | some c => rfl
    | none => cases f.st.hexprefix <;> rfl
  have hzeros : ∀ s : σ, f.cp.foldl put (putN put '0' (f.dprec - f.cp.length).toNat s) =
      (zeros f.dprec f.cp).foldl put s := by
    intro s
    rw [putN_eq, zeros, List.foldl_append]
  unfold output Field.text pad
  dsimp only
  rw [hreal, hfill, hsign, hzeros]
  simp only [putN_eq]
  cases f.st.ladjust <;> cases f.st.zeropad <;> simp [List.foldl_append]

end Sink

/-! ## The parser -/

def applyFlag (st : Conv) : Flag → Conv
  | .minus => { st with ladjust := true }
  | .plus => { st with sign := some '+' }
  | .space => { st with sign := some (st.sign.getD ' ') }
  | .hash => { st with alt := true }
  | .zero => { st with zeropad := true }

def applyMod (st : Conv) : Modifier → Conv
  | .h => { st with shortint := true }
  | .l => { st with longint := true }
  | .ll => { st with quadint := true }
  | .z => { st with sizeint := true }
  | _ => st

section Parser

variable {w : Nat} {fuel : Nat} {st : Conv} {rest : List Char} {args : List (Arg w)}

theorem rflag_flags (flags : List Flag) :
    rflag (fuel + flags.length) st (flags.map Flag.chr ++ rest) args =
      rflag fuel (flags.foldl applyFlag st) rest args := by
  induction flags generalizing st with
  | nil => rfl
  | cons flag flags ih =>
      rw [List.foldl_cons, ← ih]
      cases flag <;> rfl

/-- What follows a width and a precision. -/
def tail (mod : Modifier) (conv : Specifier) (rest : List Char) : List Char :=
  mod.chars ++ conv.chr :: rest

theorem rflag_tail {mod : Modifier} (hmod : mod ≠ .hh ∧ mod ≠ .j ∧ mod ≠ .t) (conv : Specifier) :
    rflag (fuel + 2) st (tail mod conv rest) args =
      some (applyMod st mod, conv.chr, rest, args) := by
  obtain ⟨h1, h2, h3⟩ := hmod
  cases mod with
  | hh => exact absurd rfl h1
  | j => exact absurd rfl h2
  | t => exact absurd rfl h3
  | none => cases conv <;> rfl
  | h => cases conv <;> rfl
  | l => cases conv <;> rfl
  | ll => cases conv <;> rfl
  | z => cases conv <;> rfl

theorem digits_eq (ds : List (Fin 10)) (rest : List Char) {c : Char} (hc : isDigit c = false)
    (n : Nat) : digits n (digitChars ds ++ c :: rest) =
      (ds.foldl (fun n d => 10 * n + d.val) n, c :: rest) := by
  induction ds generalizing n with
  | nil => exact if_neg (by rw [hc]; exact Bool.false_ne_true)
  | cons d ds ih =>
      have hdigit : ∀ d : Fin 10,
          isDigit (toChar d.val) = true ∧ (toChar d.val).toNat - 48 = d.val := by decide
      rw [digitChars, List.map_cons, List.cons_append, digits, if_pos (hdigit d).1, (hdigit d).2]
      exact ih _

/-- The state behind a width. -/
def withWidth (st : Conv) : Option Int → Conv
  | none => st
  | some n => if 0 ≤ n then { st with width := n } else { st with width := -n, ladjust := true }

theorem rflag_width (st : Conv) (rest : List Char) {num : Num} (hnum : num.isWidth = true)
    {c : Char} (hc : isDigit c = false) {n : Option Int} {args' : List (Arg w)}
    (htake : num.take args = some (n, args')) (hmin : n ≠ some (-2 ^ 31)) :
    ∃ k ≤ num.chars.length, ∀ fuel, rflag (fuel + k) st (num.chars ++ c :: rest) args =
      rflag fuel (withWidth st n) (c :: rest) args' := by
  match num, args, htake with
  | .none, _, htake =>
      obtain ⟨rfl, rfl⟩ := Prod.mk.inj (Option.some.inj htake)
      exact ⟨0, Nat.zero_le _, fun _ => rfl⟩
  | .star, .int x :: _, htake =>
      obtain ⟨rfl, rfl⟩ := Prod.mk.inj (Option.some.inj htake)
      refine ⟨1, Nat.succ_le_succ (Nat.zero_le _), fun fuel => ?_⟩
      change (if _ then _ else if _ then _ else _) = rflag fuel (if _ then _ else _) _ _
      rw [if_neg fun h => hmin (congrArg some h)]
      split <;> rfl
  | .lit (d :: ds), args, htake =>
      obtain ⟨hvalue, heq⟩ := Option.ite_none_right_eq_some.mp htake
      obtain ⟨rfl, rfl⟩ := Prod.mk.inj (Option.some.inj heq)
      refine ⟨1, Nat.succ_le_succ (Nat.zero_le _), fun fuel => ?_⟩
      have hfirst : ∀ fmt : List Char, rflag (fuel + 1) st (toChar d.val :: fmt) args =
          if (digits 0 (toChar d.val :: fmt)).1 < 2 ^ 31 then
            rflag fuel { st with width := (digits 0 (toChar d.val :: fmt)).1 }
              (digits 0 (toChar d.val :: fmt)).2 args
          else none := by
        intro fmt
        fin_cases d
        · exact absurd hnum (by simp [Num.isWidth])
        all_goals rfl
      have hread := digits_eq (d :: ds) rest hc 0
      change rflag (fuel + 1) st (toChar d.val :: (digitChars ds ++ c :: rest)) args = _
      change digits 0 (toChar d.val :: (digitChars ds ++ c :: rest)) = _ at hread
      have hstate : withWidth st (some (value (d :: ds) : Int)) =
          { st with width := value (d :: ds) } := by
        rw [withWidth, if_pos (Int.natCast_nonneg _)]
      rw [hfirst, hread, hstate]
      exact if_pos hvalue

/-- The state behind a precision. -/
def withPrecision (st : Conv) : Option Int → Conv
  | none => st
  | some n => { st with prec := if n < 0 then -1 else n }

theorem rflag_prec (st : Conv) (rest : List Char) {num : Num} {c : Char}
    (hc : isDigit c = false ∧ c ≠ '*') {n : Option Int} {args' : List (Arg w)}
    (htake : num.take args = some (n, args')) :
    ∃ k ≤ num.precChars.length, ∀ fuel, rflag (fuel + k) st (num.precChars ++ c :: rest) args =
      rflag fuel (withPrecision st n) (c :: rest) args' := by
  match num, args, htake with
  | .none, _, htake =>
      obtain ⟨rfl, rfl⟩ := Prod.mk.inj (Option.some.inj htake)
      exact ⟨0, Nat.zero_le _, fun _ => rfl⟩
  | .star, .int x :: _, htake =>
      obtain ⟨rfl, rfl⟩ := Prod.mk.inj (Option.some.inj htake)
      exact ⟨1, Nat.succ_le_succ (Nat.zero_le _), fun fuel => rfl⟩
  | .lit ds, args, htake =>
      obtain ⟨hvalue, heq⟩ := Option.ite_none_right_eq_some.mp htake
      obtain ⟨rfl, rfl⟩ := Prod.mk.inj (Option.some.inj heq)
      refine ⟨1, Nat.succ_le_succ (Nat.zero_le _), fun fuel => ?_⟩
      have hstar : ∀ fmt, digitChars ds ++ c :: rest = '*' :: fmt → False := by
        intro fmt heq
        cases ds with
        | nil => exact hc.2 (List.cons.inj heq).1
        | cons d ds =>
            have hdigit : ∀ d : Fin 10, toChar d.val ≠ '*' := by decide
            exact hdigit d (List.cons.inj heq).1
      change rflag (fuel + 1) st ('.' :: (digitChars ds ++ c :: rest)) args = _
      have hstate : withPrecision st (some (value ds : Int)) = { st with prec := value ds } := by
        rw [withPrecision, if_neg (Int.not_lt.mpr (Int.natCast_nonneg _))]
      rw [rflag, digits_eq ds rest hc.1, hstate]
      · exact if_pos hvalue
      · exact hstar
      · exact fun fmt _ _ _ heq => hstar fmt heq

/-- The state at the conversion, for the values of the width and the precision. -/
def Spec.state (s : Spec) (n p : Option Int) : Conv :=
  applyMod (withPrecision (withWidth (s.flags.foldl applyFlag {}) n) p) s.mod

/-- A modifier that the code knows. -/
def Modifier.Known (mod : Modifier) : Prop := mod ≠ hh ∧ mod ≠ j ∧ mod ≠ t

theorem tail_cons (mod : Modifier) (conv : Specifier) (rest : List Char) :
    ∃ c cs, tail mod conv rest = c :: cs ∧ isDigit c = false ∧ c ≠ '*' := by
  cases mod with
  | none => cases conv <;> exact ⟨_, _, rfl, by decide, by decide⟩
  | _ => exact ⟨_, _, rfl, by decide, by decide⟩

theorem rflag_spec (rest : List Char) {s : Spec} (hwidth : s.width.isWidth = true)
    (hmod : s.mod.Known) {n p : Option Int} {args₁ args₂ : List (Arg w)}
    (hn : s.width.take args = some (n, args₁)) (hmin : n ≠ some (-2 ^ 31))
    (hp : s.prec.take args₁ = some (p, args₂)) (hfuel : (s.chars ++ rest).length < fuel) :
    rflag fuel {} (s.chars ++ rest) args = some (s.state n p, s.conv.chr, rest, args₂) := by
  obtain ⟨c, cs, htail, hdigit, hstar⟩ := tail_cons s.mod s.conv rest
  have hcut : s.chars ++ rest =
      s.flags.map Flag.chr ++ (s.width.chars ++ (s.prec.precChars ++ c :: cs)) := by
    rw [← htail, tail, Spec.chars]
    simp only [List.append_assoc, List.cons_append, List.nil_append]
  obtain ⟨c', cs', hmid, hdigit'⟩ :
      ∃ c' cs', s.prec.precChars ++ c :: cs = c' :: cs' ∧ isDigit c' = false := by
    cases s.prec with
    | none => exact ⟨c, cs, rfl, hdigit⟩
    | lit ds => exact ⟨'.', _, rfl, by decide⟩
    | star => exact ⟨'.', _, rfl, by decide⟩
  obtain ⟨kw, hkw, hwidth⟩ := rflag_width (s.flags.foldl applyFlag {}) cs' hwidth
    hdigit' hn hmin
  obtain ⟨kp, hkp, hprec⟩ := rflag_prec (withWidth (s.flags.foldl applyFlag {}) n) cs
    ⟨hdigit, hstar⟩ hp
  have hlen := congrArg List.length hcut
  simp only [List.length_append, List.length_map, List.length_cons] at hlen hfuel
  obtain ⟨f, rfl⟩ : ∃ f, fuel = f + 2 + kp + kw + s.flags.length :=
    ⟨fuel - (2 + kp + kw + s.flags.length), by omega⟩
  rw [hcut, rflag_flags, hmid, hwidth, ← hmid, hprec, ← htail]
  exact rflag_tail hmod s.conv

end Parser

/-! ## Conversions -/

/-- The flags of the code, from those of the specification. -/
def flagged (flags : List Flag) : Conv where
  ladjust := decide (.minus ∈ flags)
  alt := decide (.hash ∈ flags)
  zeropad := decide (.zero ∈ flags)
  sign := if .plus ∈ flags then some '+' else if .space ∈ flags then some ' ' else none

theorem foldl_applyFlag (flags : List Flag) : flags.foldl applyFlag {} = flagged flags := by
  induction flags using List.reverseRecOn with
  | nil => rfl
  | append_singleton flags flag ih =>
      rw [List.foldl_append, ih, List.foldl_cons, List.foldl_nil]
      cases flag with
      | space =>
          by_cases h : .plus ∈ flags <;> by_cases h' : .space ∈ flags <;>
            simp [applyFlag, flagged, h, h']
      | _ => simp [applyFlag, flagged]

/-- What the state at a conversion is, by the flags and the values of the width and precision. -/
structure Spec.State (s : Spec) (n p : Option Int) (st : Conv) : Prop where
  ladjust : st.ladjust = (decide (.minus ∈ s.flags) || decide (n.getD 0 < 0))
  alt : st.alt = decide (.hash ∈ s.flags)
  zeropad : st.zeropad = decide (.zero ∈ s.flags)
  hexprefix : st.hexprefix = false
  sign : st.sign =
    if .plus ∈ s.flags then some '+' else if .space ∈ s.flags then some ' ' else none
  width : st.width = (n.getD 0).natAbs
  prec : st.prec = (p.filter (0 ≤ ·)).getD (-1)
  quadint : st.quadint = decide (s.mod = .ll)
  longint : st.longint = decide (s.mod = .l)
  sizeint : st.sizeint = decide (s.mod = .z)
  shortint : st.shortint = decide (s.mod = .h)

theorem Spec.state_holds (s : Spec) (n p : Option Int) : s.State n p (s.state n p) := by
  let s' : Spec := { s with mod := .none }
  have hwidth : s'.State n none (withWidth (flagged s.flags) n) := by
    cases n with
    | none => exact ⟨(Bool.or_false _).symm, rfl, rfl, rfl, rfl, rfl, rfl, rfl, rfl, rfl, rfl⟩
    | some n =>
        rw [withWidth]
        split
        · rename_i hn
          exact ⟨by simp [s', flagged, Int.not_lt.mpr hn], rfl, rfl, rfl, rfl,
            Int.eq_natAbs_of_nonneg hn, rfl, rfl, rfl, rfl, rfl⟩
        · rename_i hn
          exact ⟨by simp [Int.not_le.mp hn], rfl, rfl, rfl, rfl,
            (Int.ofNat_natAbs_of_nonpos (Int.le_of_not_le hn)).symm, rfl, rfl, rfl, rfl, rfl⟩
  have hprec : ∀ st, s'.State n none st → s'.State n p (withPrecision st p) := by
    rintro st ⟨h1, h2, h3, h4, h5, h6, h7, h8⟩
    cases p with
    | none => exact ⟨h1, h2, h3, h4, h5, h6, h7, h8, ‹_›, ‹_›, ‹_›⟩
    | some p =>
        refine ⟨h1, h2, h3, h4, h5, h6, ?_, h8, ‹_›, ‹_›, ‹_›⟩
        by_cases hneg : p < 0
        · simp [withPrecision, Option.filter, hneg, Int.not_le.mpr hneg]
        · simp [withPrecision, Option.filter, hneg, Int.not_lt.mp hneg]
  have hmod : ∀ st, s'.State n p st → s.State n p (applyMod st s.mod) := by
    rintro st ⟨h1, h2, h3, h4, h5, h6, h7, h8, h9, h10, h11⟩
    cases hmod : s.mod <;>
      exact ⟨h1, h2, h3, h4, h5, h6, h7, by simp_all [applyMod, s'], by simp_all [applyMod, s'],
        by simp_all [applyMod, s'], by simp_all [applyMod, s']⟩
  rw [Spec.state, foldl_applyFlag]
  exact hmod _ (hprec _ hwidth)

theorem number_text (base : Base) (st : Conv) {u : Nat} (hu : u < 2 ^ 64) (ch : Char) :
    ∃ f, number base st u ch = some f ∧ f.st.width = st.width ∧
      f.text = pad st.ladjust (st.zeropad && decide (st.prec < 0)) st.width.toNat
        (signChars st ch) (zeros st.prec (scratch base st u)) := by
  refine ⟨_, if_pos (scratch_fits base st hu), ?_, ?_⟩
  · split <;> rfl
  · unfold Field.text
    split
    · rename_i h
      rw [decide_eq_false (Int.not_lt.mpr h), Bool.and_false]
      rfl
    · rename_i h
      rw [decide_eq_true (Int.not_le.mp h), Bool.and_true]

section Arguments

variable {w : Nat} {s : Spec} {n p : Option Int} {st : Conv} {args args' : List (Arg w)}

theorem sarg_eq (hst : s.State n p st) (hmod : s.mod.Known) (hw : w ≤ 64) {v : Int}
    (harg : s.mod.signed args = some (v, args')) :
    ∃ u, sarg st args = some (u, args') ∧ u.toInt = v := by
  obtain ⟨h1, h2, h3⟩ := hmod
  have hq := hst.quadint
  have hl := hst.longint
  have hz := hst.sizeint
  have hh := hst.shortint
  match hm : s.mod, args, harg with
  | .none, .int x :: _, harg =>
      obtain ⟨rfl, rfl⟩ := Prod.mk.inj (Option.some.inj harg)
      exact ⟨x.signExtend 64, by simp_all [sarg], BitVec.toInt_signExtend_of_le (by decide)⟩
  | .h, .int x :: _, harg =>
      obtain ⟨rfl, rfl⟩ := Prod.mk.inj (Option.some.inj harg)
      exact ⟨(x.setWidth 16).signExtend 64, by simp_all [sarg],
        BitVec.toInt_signExtend_of_le (by decide)⟩
  | .l, .long x :: _, harg =>
      obtain ⟨rfl, rfl⟩ := Prod.mk.inj (Option.some.inj harg)
      exact ⟨x.signExtend 64, by simp_all [sarg], BitVec.toInt_signExtend_of_le hw⟩
  | .ll, .quad x :: _, harg =>
      obtain ⟨rfl, rfl⟩ := Prod.mk.inj (Option.some.inj harg)
      exact ⟨x, by simp_all [sarg], rfl⟩
  | .z, .size x :: _, harg =>
      obtain ⟨rfl, rfl⟩ := Prod.mk.inj (Option.some.inj harg)
      exact ⟨x.signExtend 64, by simp_all [sarg], BitVec.toInt_signExtend_of_le hw⟩
  | .hh, _, _ => exact absurd hm h1
  | .j, _, _ => exact absurd hm h2
  | .t, _, _ => exact absurd hm h3

theorem uarg_eq (hst : s.State n p st) (hmod : s.mod.Known) (hw : w ≤ 64) {m : Nat}
    (harg : s.mod.unsigned args = some (m, args')) :
    ∃ u, uarg st args = some (u, args') ∧ u.toNat = m := by
  obtain ⟨h1, h2, h3⟩ := hmod
  have hq := hst.quadint
  have hl := hst.longint
  have hz := hst.sizeint
  have hh := hst.shortint
  match hm : s.mod, args, harg with
  | .none, .int x :: _, harg =>
      obtain ⟨rfl, rfl⟩ := Prod.mk.inj (Option.some.inj harg)
      exact ⟨x.setWidth 64, by simp_all [uarg], BitVec.toNat_setWidth_of_le (by decide)⟩
  | .h, .int x :: _, harg =>
      obtain ⟨rfl, rfl⟩ := Prod.mk.inj (Option.some.inj harg)
      exact ⟨(x.setWidth 16).setWidth 64, by simp_all [uarg],
        BitVec.toNat_setWidth_of_le (by decide)⟩
  | .l, .long x :: _, harg =>
      obtain ⟨rfl, rfl⟩ := Prod.mk.inj (Option.some.inj harg)
      exact ⟨x.setWidth 64, by simp_all [uarg], BitVec.toNat_setWidth_of_le hw⟩
  | .ll, .quad x :: _, harg =>
      obtain ⟨rfl, rfl⟩ := Prod.mk.inj (Option.some.inj harg)
      exact ⟨x, by simp_all [uarg], rfl⟩
  | .z, .size x :: _, harg =>
      obtain ⟨rfl, rfl⟩ := Prod.mk.inj (Option.some.inj harg)
      exact ⟨x.setWidth 64, by simp_all [uarg], BitVec.toNat_setWidth_of_le hw⟩
  | .hh, _, _ => exact absurd hm h1
  | .j, _, _ => exact absurd hm h2
  | .t, _, _ => exact absurd hm h3

/-- A field as it is in the state but for the prefix and the body. -/
def Conv.pad (st : Conv) : List Char → List Char → List Char :=
  Kprintf.pad st.ladjust (st.zeropad && decide (st.prec < 0)) st.width.toNat

theorem toNat_neg_of_neg {u : BitVec 64} (h : u.toInt < 0) : (-u).toNat = u.toInt.natAbs := by
  rw [BitVec.toNat_neg]
  rw [BitVec.toInt_eq_toNat_cond] at h ⊢
  split at h <;> omega

theorem signed_text (hst : s.State n p st) (hmod : s.mod.Known) (hw : w ≤ 64) (ch : Char) {v : Int}
    (harg : s.mod.signed args = some (v, args')) :
    ∃ f, signed st ch args = some (f, args') ∧ f.st.width = st.width ∧
      f.text = st.pad (if v < 0 then ['-'] else st.sign.toList)
        (withPrec (precOf st.prec) (numeral 10 false v.natAbs)) := by
  obtain ⟨u, hu, rfl⟩ := sarg_eq hst hmod hw harg
  have hzeros : ∀ st' : Conv, st'.prec = st.prec → ∀ m < 2 ^ 64,
      zeros st'.prec (scratch .dec st' m) = withPrec (precOf st.prec) (numeral 10 false m) :=
    fun st' hprec m hm => hprec ▸ zeros_scratch .dec st' hm fun h => nomatch h
  rw [signed, hu]
  change ∃ f, (if u.toInt < 0 then _ else _) = some (f, args') ∧ _
  by_cases hneg : u.toInt < 0
  · obtain ⟨f, hf, hwidth, htext⟩ :=
      number_text .dec { st with sign := some '-' } (-u).isLt ch
    rw [if_pos hneg, if_pos hneg, hf]
    refine ⟨f, rfl, hwidth, ?_⟩
    rw [htext, hzeros { st with sign := some '-' } rfl _ (-u).isLt, toNat_neg_of_neg hneg]
    rfl
  · obtain ⟨f, hf, hwidth, htext⟩ := number_text .dec st u.isLt ch
    have habs : u.toNat = u.toInt.natAbs := by
      rw [BitVec.toInt_eq_toNat_cond] at hneg ⊢
      split at hneg <;> omega
    rw [if_neg hneg, if_neg hneg, hf]
    refine ⟨f, rfl, hwidth, ?_⟩
    rw [htext, hzeros st rfl _ u.isLt, habs, signChars, hst.hexprefix]
    cases st.sign <;> rfl

theorem unsigned_text (hst : s.State n p st) (hmod : s.mod.Known) (hw : w ≤ 64) (base : Base)
    (ch : Char) {m : Nat} (harg : s.mod.unsigned args = some (m, args')) :
    m < 2 ^ 64 ∧ ∃ f, unsigned base st ch args = some (f, args') ∧ f.st.width = st.width ∧
      f.text = st.pad [] (zeros st.prec (scratch base st m)) := by
  obtain ⟨u, hu, rfl⟩ := uarg_eq hst hmod hw harg
  obtain ⟨f, hf, hwidth, htext⟩ := number_text base { st with sign := none } u.isLt ch
  refine ⟨u.isLt, f, ?_, hwidth, htext.trans ?_⟩
  · rw [unsigned, hu]
    exact congrArg (Option.map (·, args')) hf
  · rw [signChars, hst.hexprefix]
    rfl

theorem hex_text (hst : s.State n p st) (hmod : s.mod.Known) (hw : w ≤ 64) (upper : Bool)
    (ch : Char) {m : Nat} (harg : s.mod.unsigned args = some (m, args')) :
    ∃ f, hex upper st ch args = some (f, args') ∧ f.st.width = st.width ∧
      f.text = st.pad (if st.alt = true ∧ m ≠ 0 then ['0', ch] else [])
        (withPrec (precOf st.prec) (numeral 16 upper m)) := by
  obtain ⟨u, hu, rfl⟩ := uarg_eq hst hmod hw harg
  have hzero : u ≠ 0 ↔ u.toNat ≠ 0 := not_congr ⟨fun h => h ▸ rfl, fun h => BitVec.eq_of_toNat_eq h⟩
  have hbody : ∀ st' : Conv, st'.prec = st.prec →
      zeros st'.prec (scratch (.hex upper) st' u.toNat) =
        withPrec (precOf st.prec) (numeral 16 upper u.toNat) :=
    fun st' hprec => hprec ▸ zeros_scratch (.hex upper) st' u.isLt fun h => nomatch h
  rw [hex, hu]
  by_cases hpre : st.alt = true ∧ u ≠ 0
  · obtain ⟨f, hf, hwidth, htext⟩ :=
      number_text (.hex upper) { st with hexprefix := true, sign := none } u.isLt ch
    refine ⟨f, ?_, hwidth, ?_⟩
    · change Option.map _ (number _ { (if _ then _ else _ : Conv) with sign := none } _ _) = _
      rw [if_pos hpre, hf]
      rfl
    · rw [htext, hbody { st with hexprefix := true, sign := none } rfl,
        if_pos (hpre.imp_right hzero.mp)]
      rfl
  · obtain ⟨f, hf, hwidth, htext⟩ :=
      number_text (.hex upper) { st with sign := none } u.isLt ch
    refine ⟨f, ?_, hwidth, ?_⟩
    · change Option.map _ (number _ { (if _ then _ else _ : Conv) with sign := none } _ _) = _
      rw [if_neg hpre, hf]
      rfl
    · rw [htext, hbody { st with sign := none } rfl, signChars, hst.hexprefix,
        if_neg (c := st.alt = true ∧ u.toNat ≠ 0) fun h => hpre (h.imp_right hzero.mpr)]
      rfl

theorem Spec.State.pad_eq (hst : s.State n p st) (sign body : List Char) :
    st.pad sign body = Kprintf.pad (decide (.minus ∈ s.flags) || decide (n.getD 0 < 0))
      (decide (.zero ∈ s.flags) && ((p.filter (0 ≤ ·)).map Int.toNat).isNone)
      (n.getD 0).natAbs sign body := by
  have hneg : decide (st.prec < 0) = ((p.filter (0 ≤ ·)).map Int.toNat).isNone := by
    rw [hst.prec]
    cases hp : p.filter (0 ≤ ·) with
    | none => rfl
    | some x => exact decide_eq_false (by simpa using (Option.filter_eq_some_iff.mp hp).2)
  rw [Conv.pad, hst.ladjust, hst.zeropad, hneg, hst.width, Int.toNat_natCast]

theorem Spec.State.precOf_eq (hst : s.State n p st) :
    precOf st.prec = ((p.filter (0 ≤ ·)).map Int.toNat).getD 1 := by
  rw [hst.prec]
  cases hp : p.filter (0 ≤ ·) with
  | none => rfl
  | some x => exact if_neg (by simpa using (Option.filter_eq_some_iff.mp hp).2)

/-- A field without a prefix and leading zeros. -/
theorem plain_text (hst : s.State n p st) (hzero : .zero ∉ s.flags) (cp : List Char) (ch : Char) :
    Field.text ⟨{ st with sign := none }, 0, cp, ch⟩ =
      Kprintf.pad (decide (.minus ∈ s.flags) || decide (n.getD 0 < 0)) false
        (n.getD 0).natAbs [] cp := by
  have hzeros : zeros 0 cp = cp := by
    rw [zeros, Int.toNat_of_nonpos (by omega)]
    rfl
  rw [Field.text, hzeros, signChars]
  rw [hst.hexprefix, hst.ladjust, hst.zeropad, decide_eq_false hzero, hst.width,
    Int.toNat_natCast]
  rfl

/-- A zero with precision zero in the alternative form of octal. -/
def Spec.Slip {w : Nat} (s : Spec) (args : List (Arg w)) : Prop :=
  s.conv = .o ∧ .hash ∈ s.flags ∧ ∃ n args₁ args₂ args₃, s.width.take args = some (n, args₁) ∧
    s.prec.take args₁ = some (some 0, args₂) ∧ s.mod.unsigned args₂ = some (0, args₃)

theorem convert_body (hst : s.State n p st) (hmod : s.mod.Known) (hw : w ≤ 64)
    (hproper : s.proper = true) {args₀ args₁ : List (Arg w)}
    (hn : s.width.take args₀ = some (n, args₁)) (hp : s.prec.take args₁ = some (p, args))
    {t : List Char} (hbody : s.body n p args = some (t, args')) (hslip : ¬s.Slip args₀) :
    ∃ f, convert st s.conv.chr args = some (f, args') ∧ f.st.width = st.width ∧ f.text = t := by
  obtain ⟨flags, width, prec, mod, conv⟩ := s
  have hother := (Bool.and_eq_true_iff.mp hproper).2
  cases conv with
  | d | i =>
      obtain ⟨⟨v, _⟩, harg, heq⟩ := Option.map_eq_some_iff.mp hbody
      obtain ⟨rfl, rfl⟩ := Prod.mk.inj heq
      obtain ⟨f, hf, hwidth, htext⟩ := signed_text hst hmod hw _ harg
      refine ⟨f, hf, hwidth, ?_⟩
      rw [htext, hst.pad_eq, hst.precOf_eq, hst.sign]
      split_ifs <;> rfl
  | x | X =>
      obtain ⟨⟨m, _⟩, harg, heq⟩ := Option.map_eq_some_iff.mp hbody
      obtain ⟨rfl, rfl⟩ := Prod.mk.inj heq
      refine (hex_text hst hmod hw _ _ harg).imp fun f ⟨hf, hwidth, htext⟩ => ⟨hf, hwidth, ?_⟩
      rw [htext, hst.pad_eq, hst.precOf_eq, hst.alt]
      rfl
  | u =>
      obtain ⟨⟨m, _⟩, harg, heq⟩ := Option.map_eq_some_iff.mp hbody
      obtain ⟨rfl, rfl⟩ := Prod.mk.inj heq
      obtain ⟨hm, f, hf, hwidth, htext⟩ := unsigned_text hst hmod hw .dec 'u' harg
      refine ⟨f, hf, hwidth, ?_⟩
      rw [htext, zeros_scratch .dec st hm (fun h => nomatch h), hst.pad_eq, hst.precOf_eq]
      rfl
  | o =>
      obtain ⟨⟨m, _⟩, harg, heq⟩ := Option.map_eq_some_iff.mp hbody
      obtain ⟨rfl, rfl⟩ := Prod.mk.inj heq
      obtain ⟨hm, f, hf, hwidth, htext⟩ := unsigned_text hst hmod hw .oct 'o' harg
      refine ⟨f, hf, hwidth, ?_⟩
      have hclear : ¬(st.alt = true ∧ st.prec = 0 ∧ m = 0) := by
        rintro ⟨halt, hprec, rfl⟩
        have hzero : p = some 0 := by
          rw [hst.prec] at hprec
          cases hq : p.filter (0 ≤ ·) with
          | none => rw [hq] at hprec; exact absurd hprec (by decide)
          | some x =>
              rw [hq] at hprec
              exact hprec ▸ (Option.filter_eq_some_iff.mp hq).1
        rw [hst.alt] at halt
        exact hslip ⟨rfl, of_decide_eq_true halt, n, args₁, args, _, hn, hzero ▸ hp, harg⟩
      rw [htext, zeros_octal st hm hclear, hst.pad_eq, hst.precOf_eq, hst.alt]
  | c =>
      obtain ⟨-, hzero, -, -⟩ := of_decide_eq_true hother
      match args, hbody with
      | .int x :: _, hbody =>
          obtain ⟨rfl, rfl⟩ := Prod.mk.inj (Option.some.inj hbody)
          exact ⟨_, rfl, rfl, plain_text hst hzero _ _⟩
  | s =>
      obtain ⟨-, hzero, -⟩ := of_decide_eq_true hother
      match args, hbody with
      | .str (some str) :: _, hbody =>
          obtain ⟨rfl, rfl⟩ := Prod.mk.inj (Option.some.inj hbody)
          refine ⟨_, rfl, rfl, (plain_text hst hzero _ _).trans (congrArg _ ?_)⟩
          rw [hst.prec]
          cases hq : p.filter (0 ≤ ·) with
          | none => rfl
          | some x =>
              have hx : 0 ≤ x := by simpa using (Option.filter_eq_some_iff.mp hq).2
              exact (congrArg str.take (if_pos hx)).trans (by simp)
  | p =>
      obtain ⟨-, hzero, rfl, -⟩ := of_decide_eq_true hother
      obtain ⟨rfl, rfl⟩ := Prod.mk.inj (Option.some.inj hp)
      match args₁, hbody with
      | .ptr x :: _, hbody =>
          obtain ⟨rfl, rfl⟩ := Prod.mk.inj (Option.some.inj hbody)
          have hx : x.toNat < 2 ^ 64 :=
            Nat.lt_of_lt_of_le x.isLt (Nat.pow_le_pow_right (by decide) hw)
          obtain ⟨f, hf, hwidth, htext⟩ :=
            number_text (.hex false) { st with hexprefix := true, sign := none } hx 'x'
          refine ⟨f, congrArg (Option.map (·, _)) hf, hwidth, ?_⟩
          rw [htext, zeros_scratch (.hex false) { st with hexprefix := true, sign := none } hx
            (fun h => nomatch h)]
          rw [hst.prec, hst.ladjust, hst.zeropad, decide_eq_false hzero, hst.width,
            Int.toNat_natCast]
          rfl
  | percent =>
      obtain ⟨rfl, rfl, rfl, rfl, -⟩ := of_decide_eq_true hother
      obtain ⟨rfl, rfl⟩ := Prod.mk.inj (Option.some.inj hn)
      obtain ⟨rfl, rfl⟩ := Prod.mk.inj (Option.some.inj hp)
      obtain ⟨rfl, rfl⟩ := Prod.mk.inj (Option.some.inj hbody)
      exact ⟨_, rfl, rfl, plain_text hst (by decide) _ _⟩

end Arguments

/-! ## Formats -/

/-- A format in which no zero has precision zero in the alternative form of octal. -/
def Clear {w : Nat} : List Piece → List (Arg w) → Prop
  | [], _ => True
  | .chr _ _ :: rest, args => Clear rest args
  | .spec s :: rest, args =>
      ¬s.Slip args ∧ ∀ t args', s.text args = some (t, args') → Clear rest args'

/-- The modifiers of a format. -/
def Known (pieces : List Piece) : Prop := ∀ s, .spec s ∈ pieces → s.mod.Known

theorem kprintf_text {w : Nat} (hw : w ≤ 64) {σ : Type} (put : σ → Char → σ) {pieces : List Piece}
    (hmod : Known pieces) {args : List (Arg w)} (hclear : Clear pieces args) {t : List Char}
    (htext : text pieces args = some t) {fuel : Nat} (hfuel : (format pieces).length < fuel)
    (s : σ) : kprintf put fuel (format pieces) args s = some (t.foldl put s) := by
  induction pieces generalizing args t fuel s with
  | nil =>
      obtain ⟨fuel, rfl⟩ := Nat.exists_eq_add_of_lt hfuel
      obtain rfl := Option.some.inj htext
      rfl
  | cons piece rest ih =>
      have hrest : Known rest := fun s hs => hmod s (List.mem_cons_of_mem _ hs)
      obtain ⟨fuel, rfl⟩ : ∃ k, fuel = k + 1 := ⟨fuel - 1, by omega⟩
      cases piece with
      | chr c hc =>
          obtain ⟨t, ht, rfl⟩ := Option.map_eq_some_iff.mp htext
          have hstep : kprintf put (fuel + 1) (c :: format rest) args s =
              kprintf put fuel (format rest) args (put s c) := if_pos hc.1
          exact hstep.trans (ih hrest hclear ht (Nat.lt_of_succ_lt_succ hfuel) _)
      | spec sp =>
          obtain ⟨⟨t₁, args'⟩, hsp, hmore⟩ := Option.bind_eq_some_iff.mp htext
          obtain ⟨t₂, ht₂, rfl⟩ := Option.map_eq_some_iff.mp hmore
          obtain ⟨⟨n, args₁⟩, hn, hcont⟩ := Option.bind_eq_some_iff.mp hsp
          obtain ⟨⟨p, args₂⟩, hp, hbody⟩ := Option.bind_eq_some_iff.mp hcont
          obtain ⟨⟨hproper, hmin⟩, hbody⟩ := Option.ite_none_right_eq_some.mp hbody
          have hknown := hmod sp (List.mem_cons_self ..)
          have hst := sp.state_holds n p
          obtain ⟨f, hf, hwidth, rfl⟩ :=
            convert_body hst hknown hw hproper hn hp hbody hclear.1
          have hread := rflag_spec (format rest) (Bool.and_eq_true_iff.mp hproper).1 hknown
            hn hmin hp (Nat.lt_succ_self _)
          have hchr : sp.conv.chr ≠ '\x00' := by cases sp.conv <;> decide
          change kprintf put (fuel + 1) ('%' :: (sp.chars ++ format rest)) args s = _
          rw [kprintf, if_neg (not_not_intro rfl), hread]
          dsimp only
          rw [if_neg hchr, hf, Option.bind_some, List.foldl_append,
            output_eq put f (by rw [hwidth, hst.width]; exact Int.natCast_nonneg _)]
          refine ih hrest (hclear.2 _ _ hsp) ht₂ ?_ _
          change (sp.chars ++ format rest).length + 1 < fuel + 1 at hfuel
          rw [List.length_append] at hfuel
          omega

theorem foldl_putchar (t : List Char) (o : Out) (hroom : o.buf.length ≤ o.room) :
    t.foldl Out.putchar o =
      ⟨o.ret + t.length, o.buf ++ t.take (o.room - o.buf.length), o.room⟩ := by
  induction t generalizing o with
  | nil => simp
  | cons c t ih =>
      rw [List.foldl_cons, Out.putchar]
      by_cases hfull : o.buf.length = o.room
      · rw [if_pos hfull, ih ⟨o.ret + 1, o.buf, o.room⟩ hroom, hfull, Nat.sub_self]
        simp only [List.take_zero, List.length_cons, Out.mk.injEq, and_true]
        omega
      · rw [if_neg hfull, ih _ (by simp; omega)]
        obtain ⟨k, hk⟩ : ∃ k, o.room - o.buf.length = k + 1 :=
          ⟨o.room - o.buf.length - 1, by omega⟩
        have hrest : o.room - (o.buf ++ [c]).length = k := by simp; omega
        rw [hrest, hk, List.take_succ_cons, List.append_assoc, List.length_cons,
          Nat.succ_add, Nat.add_succ]
        rfl

/-- Formatted output is what the standard has it be. -/
theorem kprintf_std {w : Nat} (hw : w ≤ 64) {pieces : List Piece} {args : List (Arg w)}
    {t : List Char} (htext : text pieces args = some t) (hmod : Known pieces)
    (hclear : Clear pieces args) (hlen : t.length < 2 ^ 31) :
    (∀ {σ : Type} (put : σ → Char → σ) (s : σ),
      kprintf put ((format pieces).length + 1) (format pieces) args s = some (t.foldl put s)) ∧
    (∀ size, snprintf size (format pieces) args =
      some (t.length, if 0 < size then t.take (size - 1) ++ ['\x00'] else [])) ∧
    ∀ base st, ∀ u < 2 ^ 64, (scratch base st u).length ≤ KPRINTF_BUFSIZE := by
  have hkprintf : ∀ {σ : Type} (put : σ → Char → σ) (s : σ),
      kprintf put ((format pieces).length + 1) (format pieces) args s = some (t.foldl put s) :=
    fun put s => kprintf_text hw put hmod hclear htext (Nat.lt_succ_self _) s
  refine ⟨hkprintf, fun size => ?_, fun base st u hu => scratch_fits base st hu⟩
  rw [snprintf, hkprintf, foldl_putchar _ _ (Nat.zero_le _), Option.bind_some]
  rw [Nat.zero_add, if_pos hlen]
  rcases Nat.eq_zero_or_pos size with rfl | hpos
  · simp
  · simp [hpos, Nat.not_lt.mpr hpos]

/-- `"%+-6.3d|%#x"` of -42 and 255 -/
theorem kprintf_std_formatted :
    snprintf 9 "%+-6.3d|%#x".toList ([.int (-42), .int 255] : List (Arg 64)) =
      some (11, "-042  |0".toList ++ ['\x00']) :=
  (@kprintf_std 64 (by decide)
    [.spec ⟨[.plus, .minus], .lit [6], .lit [3], .none, .d⟩, .chr '|' (by decide),
      .spec ⟨[.hash], .none, .none, .none, .x⟩]
    [.int (-42), .int 255] "-042  |0xff".toList (by decide)
    (by
      intro s hs
      simp only [List.mem_cons, Piece.spec.injEq, List.not_mem_nil, reduceCtorEq] at hs
      obtain rfl | h | rfl | h := hs
      all_goals first | exact ⟨by decide, by decide, by decide⟩ | exact h.elim)
    ⟨(fun h => nomatch h.1), fun _ _ _ => ⟨(fun h => nomatch h.1), fun _ _ _ => trivial⟩⟩
    (by decide)).2.1 9

/-- The modifier `hh` is taken for `h`. -/
theorem kprintf_hh :
    text [.spec ⟨[], .none, .none, .hh, .d⟩] [(.int 300 : Arg 64)] = some "44".toList ∧
    snprintf 10 "%hhd".toList [(.int 300 : Arg 64)] = some (3, "300".toList ++ ['\x00']) := by
  decide

end Obsd.Kprintf
