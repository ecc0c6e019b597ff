import Mathlib

/-!
# Long names on FAT volumes

`msdosfs/msdosfs_conv.c` keeps a long name in directory entries of its own,
thirteen characters each, in three fields. The entries are numbered from
one; the one with the end of the name has a bit set in its number and comes
first on the disk. An end that does not fill its entry is followed by a
zero character, and the fields behind it are all ones.

A field is the list of its two-byte characters, low byte first, of the
length the source declares. `d_name` is a memory that goes on behind the
array, so that a write past the end is a write to it.
-/

namespace Obsd.Msdos

abbrev Byte := BitVec 8

/-- `WIN_MAXLEN`. -/
def winMaxlen : Nat := 255

/-- `WIN_CHARS`, the characters of an entry. -/
def winChars : Nat := 13

/-- `WIN_LAST`, the bit of the entry with the end of the name. -/
def winLast : Byte := 0x40

/-- `WIN_CNT`, the bits of the number. -/
def winCnt : Byte := 0x3f

/-- The size of `d_name`. -/
def dNameSize : Nat := 256

def slash : Byte := 0x2f

/-- `howmany`. -/
def howmany (x y : Nat) : Nat := (x + (y - 1)) / y

/-- The part of `struct winentry` that carries the name. -/
structure Winentry where
  weCnt : Byte
  weChksum : Byte
  wePart1 : List (Byte × Byte)
  wePart2 : List (Byte × Byte)
  wePart3 : List (Byte × Byte)
  len1 : wePart1.length = 5
  len2 : wePart2.length = 6
  len3 : wePart3.length = 2

/-- `struct dirent`, as far as the name goes. -/
structure Dirent where
  dName : Nat → Byte
  dNamlen : Byte

/-! ## Writing -/

/-- The name without its trailing blanks and dots. -/
def dropTrailing (un : List Byte) : List Byte :=
  (un.reverse.dropWhile fun b => decide (b = 0x20) || decide (b = 0x2e)).reverse

/-- `winSlotCnt`. -/
def winSlotCnt (un : List Byte) : Nat :=
  if winMaxlen < (dropTrailing un).length then 0
  else howmany (dropTrailing un).length winChars

/-- One field of `n` characters, and what is left of the name, or nothing
when its end was written here. -/
def fillPart : Nat → List Byte → List (Byte × Byte) × Option (List Byte)
  | 0, un => ([], some un)
  | n + 1, [] => ((0, 0) :: List.replicate n (0xff, 0xff), none)
  | n + 1, b :: un => ((b, 0) :: (fillPart n un).1, (fillPart n un).2)

/-- A field behind the end of the name. -/
def blankPart (n : Nat) : List (Byte × Byte) := List.replicate n (0xff, 0xff)

/-- The next field, if the name goes on. -/
def fillNext (n : Nat) : Option (List Byte) → List (Byte × Byte) × Option (List Byte)
  | none => (blankPart n, none)
  | some un => fillPart n un

theorem length_fillPart (n : Nat) : ∀ un, (fillPart n un).1.length = n := by
  induction n with
  | zero => exact fun _ => rfl
  | succ n ih =>
      intro un
      cases un with
      | nil => simp [fillPart]
      | cons b un => simp [fillPart, ih]

theorem length_fillNext (n : Nat) (un : Option (List Byte)) : (fillNext n un).1.length = n := by
  cases un with
  | none => exact List.length_replicate
  | some un => exact length_fillPart n un

/-- `unix2winfn`: the entry with number `cnt`, and what the function
returns, zero when the name ends here. -/
def unix2winfn (un : List Byte) (cnt : Nat) (chksum : Int) : Winentry × Nat :=
  let un := (dropTrailing un).drop ((cnt - 1) * winChars)
  let part1 := fillPart 5 un
  let part2 := fillNext 6 part1.2
  let part3 := fillNext 2 part2.2
  let last := match part3.2 with
    | none => true
    | some rest => decide (rest.length = 0)
  ({ weCnt := if last then BitVec.ofNat 8 cnt ||| winLast else BitVec.ofNat 8 cnt
     weChksum := BitVec.ofInt 8 chksum
     wePart1 := part1.1
     wePart2 := part2.1
     wePart3 := part3.1
     len1 := length_fillPart 5 un
     len2 := length_fillNext 6 part1.2
     len3 := length_fillNext 2 part2.2 },
   match part3.2 with
   | none => 0
   | some rest => rest.length)

/-! ## Comparing -/

/-- A field against what is left of the name. The name may end here, with
a zero character; otherwise it goes on. -/
def chkPart (u2l : Byte → Byte) : List (Byte × Byte) → List Byte → Bool ⊕ List Byte
  | [], un => .inr un
  | (lo, hi) :: _, [] => .inl (decide (lo = 0) && decide (hi = 0))
  | (lo, hi) :: part, b :: un =>
      if u2l lo ≠ u2l b ∨ hi ≠ 0 then .inl false else chkPart u2l part un

/-- The next field, if the comparison is not over. -/
def chkNext (u2l : Byte → Byte) (part : List (Byte × Byte)) :
    Bool ⊕ List Byte → Bool ⊕ List Byte
  | .inl verdict => .inl verdict
  | .inr un => chkPart u2l part un

/-- The checksum test of `winChkName` and `win2unixfn`: the first entry
brings it, the others must agree. Minus one is a failure. -/
def chkSum (wep : Winentry) (chksum : Int) : Int :=
  if wep.weCnt &&& winLast ≠ 0 then wep.weChksum.toNat
  else if chksum ≠ wep.weChksum.toNat then -1
  else chksum

/-- `winChkName`, with the table `u2l` that maps to lower case. -/
def winChkName (u2l : Byte → Byte) (un : List Byte) (wep : Winentry) (chksum : Int) : Int :=
  let chksum := chkSum wep chksum
  if chksum = -1 then -1
  else
    let i := ((wep.weCnt &&& winCnt).toNat - 1 : Int) * winChars
    let unlen : Int := un.length - i
    if unlen ≤ 0 then -1
    else if wep.weCnt &&& winLast ≠ 0 ∧ unlen > winChars then -1
    else
      match chkNext u2l wep.wePart3 (chkNext u2l wep.wePart2
        (chkPart u2l wep.wePart1 (un.drop i.toNat))) with
      | .inl verdict => if verdict then chksum else -1
      | .inr _ => chksum

/-! ## Reading -/

/-- `*np = b`. -/
def put (dp : Dirent) (np : Nat) (b : Byte) : Dirent :=
  { dp with dName := Function.update dp.dName np b }

/-- Where reading a field leaves off: at the end of the name, with a
failure, or at the next field. -/
inductive Conv where
  | ended (dp : Dirent)
  | failed (dp : Dirent)
  | more (dp : Dirent) (np : Nat)

/-- One field, copied to `np`. `after` is the number of characters in the
fields behind it. Only the field in which `WIN_MAXLEN` is reached is
checked against the end of `d_name`. -/
def convPart (checked : Bool) (after : Nat) : List (Byte × Byte) → Dirent → Nat → Conv
  | [], dp, np => .more dp np
  | (lo, hi) :: part, dp, np =>
      let dp := put dp np lo
      if lo = 0 then
        .ended { dp with dNamlen := dp.dNamlen - BitVec.ofNat 8 (after + part.length + 1) }
      else if lo = slash then .failed (put dp np 0)
      else if checked = true ∧ np + 1 > winMaxlen then .failed (put dp np 0)
      else if hi ≠ 0 then .failed dp
      else convPart checked after part dp (np + 1)

/-- The next field, if the name goes on. -/
def convNext (checked : Bool) (after : Nat) (part : List (Byte × Byte)) : Conv → Conv
  | .more dp np => convPart checked after part dp np
  | c => c

/-- `win2unixfn`: the entry to which the name is added, and the checksum or
minus one. -/
def win2unixfn (wep : Winentry) (dp : Dirent) (chksum : Int) : Dirent × Int :=
  let cnt := (wep.weCnt &&& winCnt).toNat
  if cnt > howmany winMaxlen winChars ∨ cnt = 0 then (dp, -1)
  else
    let dp := if wep.weCnt &&& winLast ≠ 0 then
      { dp with dNamlen := BitVec.ofNat 8 (cnt * winChars) } else dp
    let chksum := chkSum wep chksum
    if chksum = -1 then (dp, -1)
    else
      -- the size comparisons of the source, with its constants
      let part1 := convPart (decide (winMaxlen % winChars < 5)) 8 wep.wePart1 dp
        ((cnt - 1) * winChars)
      let part2 := convNext (decide (5 ≤ winMaxlen % winChars ∧ winMaxlen % winChars < 11)) 2
        wep.wePart2 part1
      let part3 := convNext (decide (11 ≤ winMaxlen % winChars)) 0 wep.wePart3 part2
      match part3 with
      | .ended dp => (dp, chksum)
      | .failed dp => (dp, -1)
      | .more dp _ => (dp, chksum)

end Obsd.Msdos
