import Obsd.MsdosConv
import Obsd.RingBuf

/-!
# Long names come back

What `unix2winfn` writes into the entries of a name is read back by
`win2unixfn`, entry by entry from the last to the first, and recognised by
`winChkName`. The three fields of an entry are all filled by `fillPart`, so
one lemma says what reading and comparing such a field does; an entry is
then three of these in a row.
-/

namespace Obsd.Msdos

open RingBuf (store)

/-! ## Storing a list of bytes -/

theorem store_cons {α : Type*} (get : Nat → α) (o : Nat) (x : α) (xs : List α) :
    store (Function.update get o x) (o + 1) xs = store get o (x :: xs) := by
  funext a
  unfold RingBuf.store
  by_cases ho : a = o
  · subst ho
    rw [if_neg (by omega), if_pos (Nat.le_refl a), Function.update_self, Nat.sub_self]
    rfl
  · rw [Function.update_of_ne ho]
    by_cases hle : o ≤ a
    · rw [if_pos (by omega), if_pos hle, show a - o = a - (o + 1) + 1 by omega]
      rfl
    · rw [if_neg (by omega), if_neg hle]

theorem store_nil {α : Type*} (get : Nat → α) (o : Nat) : store get o [] = get := by
  funext a
  exact RingBuf.store_of_outside (by simp; omega)

theorem store_append {α : Type*} (get : Nat → α) (o : Nat) (xs ys : List α) :
    store (store get o xs) (o + xs.length) ys = store get o (xs ++ ys) := by
  induction xs generalizing get o with
  | nil => rw [store_nil]; rfl
  | cons x xs ih =>
      rw [← store_cons, List.cons_append, ← store_cons, ← ih, List.length_cons,
        Nat.add_right_comm, Nat.add_assoc]

/-! ## One field -/

variable {u2l : Byte → Byte} {n np after : Nat} {un : List Byte} {dp : Dirent} {c : Bool}

/-- Characters that neither end a name nor a path. -/
def Plain (un : List Byte) : Prop := ∀ b ∈ un, b ≠ 0 ∧ b ≠ slash

theorem Plain.drop (h : Plain un) (k : Nat) : Plain (un.drop k) :=
  fun b hb => h b (List.mem_of_mem_drop hb)

/-- A field long enough for the end of the name has it. -/
theorem fillPart_of_lt (hlt : un.length < n) : (fillPart n un).2 = none := by
  induction n generalizing un with
  | zero => exact absurd hlt (Nat.not_lt_zero _)
  | succ n ih =>
      cases un with
      | nil => rfl
      | cons b un => exact ih (Nat.lt_of_succ_lt_succ hlt)

theorem fillPart_of_le (hle : n ≤ un.length) : (fillPart n un).2 = some (un.drop n) := by
  induction n generalizing un with
  | zero => rfl
  | succ n ih =>
      cases un with
      | nil => exact absurd hle (Nat.not_succ_le_zero n)
      | cons b un => exact ih (Nat.le_of_succ_le_succ hle)

/-- A field is recognised by the name it was filled from. -/
theorem chkPart_fillPart (n : Nat) (un : List Byte) :
    chkPart u2l (fillPart n un).1 un =
      match (fillPart n un).2 with
      | none => .inl true
      | some rest => .inr rest := by
  induction n generalizing un with
  | zero => rfl
  | succ n ih =>
      cases un with
      | nil => rfl
      | cons b un =>
          show (if u2l b ≠ u2l b ∨ (0 : Byte) ≠ 0 then _ else _) = _
          rw [if_neg (by simp)]
          exact ih un

/-- Reading a field that the name goes through. -/
theorem convPart_of_le (hplain : Plain un) (hle : n ≤ un.length)
    (hroom : c = true → np + n ≤ winMaxlen) :
    convPart c after (fillPart n un).1 dp np =
      .more { dp with dName := store dp.dName np (un.take n) } (np + n) := by
  induction n generalizing un dp np with
  | zero =>
      simp only [List.take_zero, store_nil]
      rfl
  | succ n ih =>
      cases un with
      | nil => exact absurd hle (Nat.not_succ_le_zero n)
      | cons b un =>
          obtain ⟨hzero, hslash⟩ := hplain b List.mem_cons_self
          have hok : ¬ (c = true ∧ np + 1 > winMaxlen) := by
            rintro ⟨hc, hgt⟩
            have := hroom hc
            omega
          rw [fillPart, convPart, if_neg hzero, if_neg hslash, if_neg hok, if_neg (by simp),
            ih (fun d hd => hplain d (List.mem_cons_of_mem b hd)) (Nat.le_of_succ_le_succ hle)
              (fun hc => by have := hroom hc; omega)]
          simp only [put, List.take_succ_cons, store_cons]
          rw [Nat.add_right_comm, Nat.add_assoc]

/-- Reading the field with the end of the name. -/
theorem convPart_of_lt (hplain : Plain un) (hlt : un.length < n)
    (hroom : c = true → np + un.length ≤ winMaxlen) :
    convPart c after (fillPart n un).1 dp np =
      .ended
        { dName := store dp.dName np (un ++ [0])
          dNamlen := dp.dNamlen - BitVec.ofNat 8 (after + (n - un.length)) } := by
  induction n generalizing un dp np with
  | zero => exact absurd hlt (Nat.not_lt_zero _)
  | succ n ih =>
      cases un with
      | nil =>
          rw [fillPart, convPart, if_pos rfl, List.length_replicate]
          simp only [put, List.nil_append, List.length_nil, Nat.sub_zero, ← store_cons, store_nil]
          rfl
      | cons b un =>
          obtain ⟨hzero, hslash⟩ := hplain b List.mem_cons_self
          have hok : ¬ (c = true ∧ np + 1 > winMaxlen) := by
            rintro ⟨hc, hgt⟩
            have := hroom hc
            simp only [List.length_cons] at this
            omega
          rw [fillPart, convPart, if_neg hzero, if_neg hslash, if_neg hok, if_neg (by simp),
            ih (fun d hd => hplain d (List.mem_cons_of_mem b hd)) (Nat.lt_of_succ_lt_succ hlt)
              (fun hc => by have := hroom hc; simp only [List.length_cons] at this; omega)]
          simp only [put, List.cons_append, store_cons, List.length_cons, Nat.succ_sub_succ]

/-! ## One entry -/

/-- The three fields of an entry for what is left of a name. -/
structure Filled (wep : Winentry) (un : List Byte) : Prop where
  part1 : wep.wePart1 = (fillPart 5 un).1
  part2 : wep.wePart2 = (fillNext 6 (fillPart 5 un).2).1
  part3 : wep.wePart3 = (fillNext 2 (fillNext 6 (fillPart 5 un).2).2).1

/-- The fields of an entry, read in turn. -/
def convEntry (wep : Winentry) (dp : Dirent) (np : Nat) : Conv :=
  convNext false 0 wep.wePart3 (convNext true 2 wep.wePart2 (convPart false 8 wep.wePart1 dp np))

variable {wep : Winentry}

/-- An entry the name fills. -/
theorem convEntry_of_le (hf : Filled wep un) (hplain : Plain un) (hle : winChars ≤ un.length)
    (hroom : np + 11 ≤ winMaxlen) :
    convEntry wep dp np =
      .more { dp with dName := store dp.dName np (un.take winChars) } (np + winChars) := by
  have hle' : 13 ≤ un.length := hle
  have h1 : (fillPart 5 un).2 = some (un.drop 5) := fillPart_of_le (by omega)
  have h2 : (fillPart 6 (un.drop 5)).2 = some (un.drop 11) := by
    rw [fillPart_of_le (by rw [List.length_drop]; omega), List.drop_drop]
  have htake : un.take winChars = un.take 5 ++ ((un.drop 5).take 6 ++ (un.drop 11).take 2) := by
    rw [show un.drop 11 = (un.drop 5).drop 6 by rw [List.drop_drop], ← List.take_add,
      ← List.take_add]
    rfl
  rw [convEntry, hf.part1, hf.part2, hf.part3, h1]
  simp only [fillNext, h2]
  rw [convPart_of_le (n := 5) (c := false) hplain (by omega) nofun]
  simp only [convNext]
  rw [convPart_of_le (n := 6) (c := true) (hplain.drop 5) (by rw [List.length_drop]; omega) (fun _ => hroom)]
  simp only
  rw [convPart_of_le (n := 2) (c := false) (hplain.drop 11) (by rw [List.length_drop]; omega) nofun]
  have hlen5 : (un.take 5).length = 5 := by rw [List.length_take]; omega
  have hlen6 : ((un.drop 5).take 6).length = 6 := by
    rw [List.length_take, List.length_drop]; omega
  rw [htake, ← store_append, ← store_append, hlen5, hlen6]
  rfl

/-- The entry with the end of the name, and room behind it. -/
theorem convEntry_of_lt (hf : Filled wep un) (hplain : Plain un) (hlt : un.length < winChars)
    (hroom : np + un.length ≤ winMaxlen) :
    convEntry wep dp np =
      .ended
        { dName := store dp.dName np (un ++ [0])
          dNamlen := dp.dNamlen - BitVec.ofNat 8 (winChars - un.length) } := by
  have hlt' : un.length < 13 := hlt
  rw [convEntry, hf.part1, hf.part2, hf.part3]
  by_cases h5 : un.length < 5
  · rw [convPart_of_lt (c := false) hplain h5 nofun]
    simp only [convNext]
    rw [show 8 + (5 - un.length) = winChars - un.length by simp only [winChars]; omega]
  · have h1 : (fillPart 5 un).2 = some (un.drop 5) := fillPart_of_le (by omega)
    have hlen5 : (un.take 5).length = 5 := by rw [List.length_take]; omega
    rw [h1, convPart_of_le (n := 5) (c := false) hplain (by omega) nofun]
    simp only [fillNext, convNext]
    by_cases h11 : un.length < 11
    · rw [convPart_of_lt (n := 6) (c := true) (hplain.drop 5) (by rw [List.length_drop]; omega)
        (fun _ => by rw [List.length_drop]; omega)]
      have hcat : un ++ [0] = un.take 5 ++ (un.drop 5 ++ [0]) := by
        rw [← List.append_assoc, List.take_append_drop]
      rw [hcat, ← store_append dp.dName np (un.take 5) (un.drop 5 ++ [0]), hlen5,
        List.length_drop, show 2 + (6 - (un.length - 5)) = winChars - un.length by simp only [winChars]; omega]
    · have h2 : (fillPart 6 (un.drop 5)).2 = some (un.drop 11) := by
        rw [fillPart_of_le (by rw [List.length_drop]; omega), List.drop_drop]
      have hlen6 : ((un.drop 5).take 6).length = 6 := by
        rw [List.length_take, List.length_drop]; omega
      rw [convPart_of_le (n := 6) (c := true) (hplain.drop 5) (by rw [List.length_drop]; omega) (fun _ => by omega)]
      simp only [h2]
      rw [convPart_of_lt (n := 2) (c := false) (hplain.drop 11) (by rw [List.length_drop]; omega) nofun]
      have hcat : un ++ [0] = un.take 5 ++ ((un.drop 5).take 6 ++ (un.drop 11 ++ [0])) := by
        rw [show un.drop 11 = (un.drop 5).drop 6 by rw [List.drop_drop], ← List.append_assoc,
          ← List.append_assoc, List.append_assoc (un.take 5), List.take_append_drop,
          List.take_append_drop]
      rw [hcat, ← store_append dp.dName np (un.take 5), hlen5,
        ← store_append _ (np + 5) ((un.drop 5).take 6), hlen6, List.length_drop,
        show 0 + (2 - (un.length - 11)) = winChars - un.length by simp only [winChars]; omega]

/-- Comparing an entry with the name it was filled from. -/
theorem chkEntry (u2l : Byte → Byte) (hf : Filled wep un) :
    (∃ rest, chkNext u2l wep.wePart3 (chkNext u2l wep.wePart2 (chkPart u2l wep.wePart1 un)) =
      .inr rest) ∨
    chkNext u2l wep.wePart3 (chkNext u2l wep.wePart2 (chkPart u2l wep.wePart1 un)) =
      .inl true := by
  have hnext : ∀ n (o : Option (List Byte)) (v : Bool ⊕ List Byte),
      v = (match o with | none => .inl true | some rest => .inr rest) →
      chkNext u2l (fillNext n o).1 v =
        match (fillNext n o).2 with | none => .inl true | some rest => .inr rest := by
    rintro n (_ | rest) v rfl
    · rfl
    · exact chkPart_fillPart n rest
  rw [hf.part1, hf.part2, hf.part3,
    hnext 2 _ _ (hnext 6 _ _ (chkPart_fillPart 5 un))]
  split
  · exact .inr rfl
  · exact .inl ⟨_, rfl⟩

/-! ## The entries of a name -/

/-- A name of one to `WIN_MAXLEN` bytes, none of them zero or a slash, that
does not end in a blank or a dot. -/
structure LongName where
  bytes : List Byte
  pos : 0 < bytes.length
  le : bytes.length ≤ winMaxlen
  plain : Plain bytes
  noTrail : ∀ b, bytes.getLast? = some b → b ≠ 0x20 ∧ b ≠ 0x2e

variable (name : LongName) (cnt : Nat) (chksum : Int)

theorem LongName.dropTrailing : Msdos.dropTrailing name.bytes = name.bytes := by
  have hne : name.bytes.reverse ≠ [] := by
    rw [Ne, List.reverse_eq_nil_iff]
    exact List.ne_nil_of_length_pos name.pos
  obtain ⟨b, rest, hrev⟩ := List.exists_cons_of_ne_nil hne
  have hb := name.noTrail b (by rw [← List.head?_reverse, hrev]; rfl)
  have hkeep : ¬ (decide (b = 0x20) || decide (b = 0x2e)) = true := by
    rw [decide_eq_false hb.1, decide_eq_false hb.2]
    exact Bool.false_ne_true
  rw [Msdos.dropTrailing, hrev, List.dropWhile_cons, if_neg hkeep, ← hrev, List.reverse_reverse]

/-- The entries cover the name, the last one not in vain. -/
theorem LongName.slots : (winSlotCnt name.bytes - 1) * winChars < name.bytes.length ∧
    name.bytes.length ≤ winSlotCnt name.bytes * winChars ∧ 0 < winSlotCnt name.bytes ∧
    winSlotCnt name.bytes ≤ 20 := by
  have hcnt : winSlotCnt name.bytes = (name.bytes.length + 12) / 13 := by
    rw [winSlotCnt, name.dropTrailing, if_neg (Nat.not_lt.mpr name.le)]
    rfl
  have hpos := name.pos
  have hle : name.bytes.length ≤ 255 := name.le
  simp only [hcnt, winChars]
  omega

theorem fill_last (un : List Byte) : (fillNext 2 (fillNext 6 (fillPart 5 un).2).2).2 =
    if un.length < winChars then none else some (un.drop winChars) := by
  by_cases h5 : un.length < 5
  · rw [fillPart_of_lt h5, if_pos (Nat.lt_trans h5 (by decide))]
    rfl
  · rw [fillPart_of_le (by omega)]
    simp only [fillNext]
    by_cases h11 : un.length < 11
    · rw [fillPart_of_lt (by rw [List.length_drop]; omega),
        if_pos (Nat.lt_trans h11 (by decide))]
    · rw [fillPart_of_le (by rw [List.length_drop]; omega), List.drop_drop]
      by_cases h13 : un.length < winChars
      · have h13' : un.length < 13 := h13
        rw [fillPart_of_lt (by rw [List.length_drop]; omega), if_pos h13]
      · have h13' : ¬ un.length < 13 := h13
        rw [fillPart_of_le (by rw [List.length_drop]; omega), if_neg h13, List.drop_drop]
        rfl

/-- What is left of the name at an entry. -/
def LongName.rest : List Byte := name.bytes.drop ((cnt - 1) * winChars)

theorem LongName.filled : Filled (unix2winfn name.bytes cnt chksum).1 (name.rest cnt) := by
  have hrest : name.rest cnt = (Msdos.dropTrailing name.bytes).drop ((cnt - 1) * winChars) := by
    rw [name.dropTrailing]
    rfl
  rw [hrest]
  exact ⟨rfl, rfl, rfl⟩

/-- The entry has the bit exactly when the rest fits into it. -/
theorem LongName.weCnt : (unix2winfn name.bytes cnt chksum).1.weCnt =
    if (name.rest cnt).length ≤ winChars then BitVec.ofNat 8 cnt ||| winLast
    else BitVec.ofNat 8 cnt := by
  simp only [unix2winfn, name.dropTrailing]
  rw [← LongName.rest, fill_last]
  by_cases hlt : (name.rest cnt).length < winChars
  · rw [if_pos hlt, if_pos (Nat.le_of_lt hlt)]
    rfl
  · rw [if_neg hlt]
    simp only [List.length_drop, decide_eq_true_eq, Nat.sub_eq_zero_iff_le]

theorem cnt_bits : ∀ cnt : Nat, cnt < 21 →
    ((BitVec.ofNat 8 cnt ||| winLast) &&& winCnt).toNat = cnt
    ∧ (BitVec.ofNat 8 cnt &&& winCnt).toNat = cnt
    ∧ (BitVec.ofNat 8 cnt ||| winLast) &&& winLast ≠ 0
    ∧ BitVec.ofNat 8 cnt &&& winLast = 0 := by
  decide

/-- The checksum as it is stored. -/
def stored (chksum : Int) : Int := (BitVec.ofInt 8 chksum).toNat

theorem stored_ne : stored chksum ≠ -1 := by
  unfold stored
  omega

variable {cnt}

/-- An entry in the middle of the name. -/
theorem LongName.chkSum_mid (hcnt : cnt < 21) (hmid : winChars < (name.rest cnt).length) :
    chkSum (unix2winfn name.bytes cnt chksum).1 (stored chksum) = stored chksum := by
  obtain ⟨-, -, -, hlast⟩ := cnt_bits cnt hcnt
  rw [chkSum, name.weCnt, if_neg (Nat.not_le.mpr hmid), if_neg (not_not.mpr hlast)]
  exact if_neg (not_not.mpr rfl)

theorem LongName.chkSum_last (hcnt : cnt < 21) (hend : (name.rest cnt).length ≤ winChars)
    (c : Int) : chkSum (unix2winfn name.bytes cnt chksum).1 c = stored chksum := by
  obtain ⟨-, -, hlast, -⟩ := cnt_bits cnt hcnt
  rw [chkSum, name.weCnt, if_pos hend, if_pos hlast]
  rfl

/-- `win2unixfn` of an entry whose number and checksum are in order. -/
theorem win2unixfn_eq {wep : Winentry} {c : Int} (hcnt : (wep.weCnt &&& winCnt).toNat = cnt)
    (hpos : 0 < cnt) (hle : cnt < 21) (hsum : chkSum wep c = stored chksum) (dp : Dirent) :
    win2unixfn wep dp c =
      match convEntry wep (if wep.weCnt &&& winLast ≠ 0 then
        { dp with dNamlen := BitVec.ofNat 8 (cnt * winChars) } else dp)
        ((cnt - 1) * winChars) with
      | .ended dp => (dp, stored chksum)
      | .failed dp => (dp, -1)
      | .more dp _ => (dp, stored chksum) := by
  have hno : ¬ (cnt > howmany winMaxlen winChars ∨ cnt = 0) := by
    have h20 : howmany winMaxlen winChars = 20 := by decide
    omega
  simp only [win2unixfn, hcnt, if_neg hno, hsum, if_neg (stored_ne chksum)]
  rfl

/-- The name was read from the entry after the first `k` on. -/
structure ReadFrom (k : Nat) (out : Dirent × Int) : Prop where
  sum : out.2 = stored chksum
  namlen : out.1.dNamlen = BitVec.ofNat 8 name.bytes.length
  bytes : ∀ i (h : i < name.bytes.length), k * winChars ≤ i → out.1.dName i = name.bytes[i]

theorem LongName.length_rest : (name.rest cnt).length = name.bytes.length - (cnt - 1) * winChars :=
  List.length_drop

/-- Bytes stored from the rest of the name are bytes of the name. -/
theorem LongName.store_rest {get : Nat → Byte} {xs : List Byte} (hpre : xs <+: name.rest cnt)
    {i : Nat} (hi : i < name.bytes.length) (hle : (cnt - 1) * winChars ≤ i)
    (hlt : i < (cnt - 1) * winChars + xs.length) :
    store get ((cnt - 1) * winChars) xs i = name.bytes[i] := by
  obtain ⟨j, rfl⟩ := Nat.exists_eq_add_of_le hle
  have hj : j < xs.length := by omega
  rw [RingBuf.store_of_inside hj, hpre.getElem hj]
  exact List.getElem_drop

/-- The entry with the end of the name starts the reading. -/
theorem LongName.read_last (hcnt : cnt = winSlotCnt name.bytes) (dp : Dirent) (c : Int) :
    ReadFrom name chksum (cnt - 1) (win2unixfn (unix2winfn name.bytes cnt chksum).1 dp c) := by
  obtain ⟨hlo, hhi, hpos, h20⟩ := name.slots
  rw [← hcnt] at hlo hhi hpos h20
  have hlen : (name.rest cnt).length = _ := name.length_rest
  have hend : (name.rest cnt).length ≤ winChars := by
    simp only [winChars] at *
    omega
  obtain ⟨hnum, -, hbit, -⟩ := cnt_bits cnt (by omega)
  have hweCnt := name.weCnt cnt chksum
  rw [if_pos hend] at hweCnt
  have hplain : Plain (name.rest cnt) := name.plain.drop _
  have hle := name.le
  rw [win2unixfn_eq chksum (by rw [hweCnt]; exact hnum) hpos (by omega)
    (name.chkSum_last chksum (by omega) hend c), hweCnt, if_pos hbit]
  by_cases hfull : winChars ≤ (name.rest cnt).length
  · -- the last entry is full: there is no zero character
    rw [convEntry_of_le (name.filled cnt chksum) hplain hfull
      (by simp only [winChars, winMaxlen] at *; omega)]
    refine ⟨rfl, ?_, fun i hi hki => ?_⟩
    · show BitVec.ofNat 8 (cnt * winChars) = _
      congr 1
      simp only [winChars] at *
      omega
    · refine name.store_rest (List.take_prefix _ _) hi hki ?_
      rw [List.length_take]
      omega
  · have hlt : (name.rest cnt).length < winChars := Nat.not_le.mp hfull
    rw [convEntry_of_lt (name.filled cnt chksum) hplain hlt
      (by omega)]
    refine ⟨rfl, ?_, fun i hi hki => ?_⟩
    · -- one byte is enough for the length, counted down from above
      apply BitVec.eq_of_toNat_eq
      simp only [BitVec.toNat_sub, BitVec.toNat_ofNat, winChars, winMaxlen] at *
      omega
    · have hstore : ∀ get : Nat → Byte, store get ((cnt - 1) * winChars) (name.rest cnt ++ [0]) i =
          store get ((cnt - 1) * winChars) (name.rest cnt) i := by
        intro get
        rw [← store_append]
        exact RingBuf.store_of_outside (.inl (by omega))
      show store dp.dName _ (name.rest cnt ++ [0]) i = _
      rw [hstore]
      exact name.store_rest (List.prefix_refl _) hi hki (by omega)

/-- An entry before the end adds its thirteen bytes. -/
theorem LongName.read_mid (hpos : 0 < cnt) (hcnt : cnt < winSlotCnt name.bytes)
    {out : Dirent × Int} (h : ReadFrom name chksum cnt out) :
    ReadFrom name chksum (cnt - 1)
      (win2unixfn (unix2winfn name.bytes cnt chksum).1 out.1 out.2) := by
  obtain ⟨hlo, -, -, h20⟩ := name.slots
  have hlen : (name.rest cnt).length = _ := name.length_rest
  have hmid : winChars < (name.rest cnt).length := by
    simp only [winChars] at *
    omega
  obtain ⟨-, hnum, -, hbit⟩ := cnt_bits cnt (by omega)
  have hweCnt := name.weCnt cnt chksum
  rw [if_neg (Nat.not_le.mpr hmid)] at hweCnt
  rw [win2unixfn_eq chksum (by rw [hweCnt]; exact hnum) hpos (by omega)
    (by rw [h.sum]; exact name.chkSum_mid chksum (by omega) hmid), hweCnt,
    if_neg (not_not.mpr hbit), convEntry_of_le (name.filled cnt chksum) (name.plain.drop _)
      (Nat.le_of_lt hmid) (by simp only [winChars, winMaxlen] at *; omega)]
  refine ⟨rfl, h.namlen, fun i hi hki => ?_⟩
  have htake : ((name.rest cnt).take winChars).length = winChars := by
    rw [List.length_take]
    omega
  by_cases hin : i < (cnt - 1) * winChars + winChars
  · exact name.store_rest (List.take_prefix _ _) hi hki (by rw [htake]; exact hin)
  · show store out.1.dName _ _ i = _
    rw [RingBuf.store_of_outside (.inr (by omega))]
    refine h.bytes i hi ?_
    simp only [winChars] at *
    omega

/-! ## No write past the name -/

/-- Nothing behind `d_name` changed. -/
def Inside (dp dp' : Dirent) : Prop := ∀ i, dNameSize ≤ i → dp'.dName i = dp.dName i

theorem Inside.put {dp dp' : Dirent} (h : Inside dp dp') {np : Nat} (hnp : np < dNameSize)
    (b : Byte) : Inside dp (put dp' np b) := by
  intro i hi
  show Function.update dp'.dName np b i = _
  rw [Function.update_of_ne (by omega)]
  exact h i hi

/-- What a field leaves: nothing changed behind `d_name`, and if the name
goes on, `np` is at `stop`, inside when the field was checked. -/
def ConvInside (dp : Dirent) (c : Bool) (stop : Nat) : Conv → Prop
  | .ended dp' => Inside dp dp'
  | .failed dp' => Inside dp dp'
  | .more dp' np => Inside dp dp' ∧ np = stop ∧ (c = true → np ≤ winMaxlen)

theorem convPart_inside {dp₀ : Dirent} {part : List (Byte × Byte)} :
    ∀ {dp : Dirent} {np : Nat}, Inside dp₀ dp → (c = true → np ≤ winMaxlen) →
      (c = false → np + part.length ≤ dNameSize) →
      ConvInside dp₀ c (np + part.length) (convPart c after part dp np) := by
  induction part with
  | nil => exact fun hin hc _ => ⟨hin, rfl, hc⟩
  | cons x part ih =>
      intro dp np hin hc hroom
      have hnp : np < dNameSize := by
        cases c with
        | true => exact Nat.lt_succ_of_le (hc rfl)
        | false =>
            have := hroom rfl
            simp only [List.length_cons] at this
            omega
      have hput := hin.put hnp x.1
      rw [convPart]
      split
      · exact hput
      · split
        · exact hput.put hnp 0
        · split
          · exact hput.put hnp 0
          · rename_i hend
            split
            · exact hput
            · rw [List.length_cons, Nat.add_comm part.length 1, ← Nat.add_assoc]
              refine ih hput (fun h => ?_) (fun h => ?_)
              · by_contra hgt
                exact hend ⟨h, by omega⟩
              · have := hroom h
                simp only [List.length_cons] at this
                omega

/-- The fields of an entry: only in the last entry could they reach the
end of `d_name`, and there the second one is where it is checked. -/
theorem convEntry_inside {dp₀ dp : Dirent} (wep : Winentry) (hin : Inside dp₀ dp)
    (hpos : 0 < cnt) (hle : cnt < 21) :
    ConvInside dp₀ false ((cnt - 1) * winChars + 13)
      (convEntry wep dp ((cnt - 1) * winChars)) := by
  have h1 : ConvInside dp₀ false ((cnt - 1) * winChars + wep.wePart1.length)
      (convPart false 8 wep.wePart1 dp ((cnt - 1) * winChars)) :=
    convPart_inside hin nofun fun _ => by
      rw [wep.len1]
      simp only [winChars, dNameSize]
      omega
  rw [wep.len1] at h1
  rw [convEntry]
  cases hp1 : convPart false 8 wep.wePart1 dp ((cnt - 1) * winChars) with
  | ended dp' => rw [hp1] at h1; exact h1
  | failed dp' => rw [hp1] at h1; exact h1
  | more dp₁ np₁ =>
      rw [hp1] at h1
      obtain ⟨hin₁, rfl, -⟩ := h1
      have h2 : ConvInside dp₀ true ((cnt - 1) * winChars + 5 + wep.wePart2.length)
          (convPart true 2 wep.wePart2 dp₁ ((cnt - 1) * winChars + 5)) :=
        convPart_inside hin₁ (fun _ => by simp only [winChars, winMaxlen]; omega) nofun
      rw [wep.len2] at h2
      simp only [convNext]
      cases hp2 : convPart true 2 wep.wePart2 dp₁ ((cnt - 1) * winChars + 5) with
      | ended dp' => rw [hp2] at h2; exact h2
      | failed dp' => rw [hp2] at h2; exact h2
      | more dp₂ np₂ =>
          rw [hp2] at h2
          obtain ⟨hin₂, rfl, hmax⟩ := h2
          have hmax' := hmax rfl
          have h3 : ConvInside dp₀ false ((cnt - 1) * winChars + 5 + 6 + wep.wePart3.length)
              (convPart false 0 wep.wePart3 dp₂ ((cnt - 1) * winChars + 5 + 6)) :=
            convPart_inside hin₂ nofun fun _ => by
              rw [wep.len3]
              simp only [winChars, winMaxlen, dNameSize] at *
              omega
          rw [wep.len3] at h3
          exact h3

/-- `win2unixfn` stays inside `d_name`, whatever is in the entry. -/
theorem win2unixfn_inside (wep : Winentry) (dp : Dirent) (c : Int) :
    Inside dp (win2unixfn wep dp c).1 := by
  simp only [win2unixfn]
  split
  · exact fun _ _ => rfl
  · rename_i hcnt
    have h20 : howmany winMaxlen winChars = 20 := by decide
    generalize (wep.weCnt &&& winCnt).toNat = cnt at hcnt ⊢
    split
    · intro i _
      split <;> rfl
    · have hentry : ConvInside dp false _ (convEntry wep (if wep.weCnt &&& winLast ≠ 0 then
          { dp with dNamlen := BitVec.ofNat 8 (cnt * winChars) } else dp)
          ((cnt - 1) * winChars)) :=
        convEntry_inside wep (fun i _ => by split <;> rfl) (by omega) (by omega)
      split
      · rename_i dp' hconv
        rw [show convEntry wep _ _ = .ended dp' from hconv] at hentry
        exact hentry
      · rename_i dp' hconv
        rw [show convEntry wep _ _ = .failed dp' from hconv] at hentry
        exact hentry
      · rename_i dp' np hconv
        rw [show convEntry wep _ _ = .more dp' np from hconv] at hentry
        exact hentry.1

/-! ## The round trip -/

/-- Entry `k` and the ones before it, from the last to the first. -/
def readDown (un : List Byte) (chksum : Int) : Nat → Dirent × Int → Dirent × Int
  | 0, out => out
  | k + 1, out =>
      readDown un chksum k (win2unixfn (unix2winfn un (k + 1) chksum).1 out.1 out.2)

theorem LongName.readDown {k : Nat} (hk : k < winSlotCnt name.bytes) {out : Dirent × Int}
    (h : ReadFrom name chksum k out) :
    ReadFrom name chksum 0 (Msdos.readDown name.bytes chksum k out) := by
  induction k generalizing out with
  | zero => exact h
  | succ k ih => exact ih (Nat.lt_of_succ_lt hk) (name.read_mid chksum (Nat.succ_pos k) hk h)

/-- An entry is recognised by the name. -/
theorem LongName.recognised (u2l : Byte → Byte) (hpos : 0 < cnt)
    (hcnt : cnt ≤ winSlotCnt name.bytes) {c : Int}
    (hc : cnt = winSlotCnt name.bytes ∨ c = stored chksum) :
    winChkName u2l name.bytes (unix2winfn name.bytes cnt chksum).1 c = stored chksum := by
  obtain ⟨hlo, hhi, -, h20⟩ := name.slots
  have hlen : (name.rest cnt).length = _ := name.length_rest
  have hlt : (cnt - 1) * winChars < name.bytes.length := by
    simp only [winChars] at *
    omega
  obtain ⟨hnumLast, hnumMid, hbitLast, hbitMid⟩ := cnt_bits cnt (by omega)
  have hnum : ((unix2winfn name.bytes cnt chksum).1.weCnt &&& winCnt).toNat = cnt := by
    rw [name.weCnt]
    split
    · exact hnumLast
    · exact hnumMid
  have hsum : chkSum (unix2winfn name.bytes cnt chksum).1 c = stored chksum := by
    by_cases hend : (name.rest cnt).length ≤ winChars
    · exact name.chkSum_last chksum (by omega) hend c
    · have hne : cnt ≠ winSlotCnt name.bytes := by
        rintro rfl
        simp only [winChars] at *
        omega
      rw [hc.resolve_left hne]
      exact name.chkSum_mid chksum (by omega) (Nat.not_le.mp hend)
  have hi : ((cnt : Int) - 1) * (winChars : Nat) = (((cnt - 1) * winChars : Nat) : Int) := by
    show ((cnt : Int) - 1) * 13 = (((cnt - 1) * 13 : Nat) : Int)
    omega
  have hshort : ¬ ((unix2winfn name.bytes cnt chksum).1.weCnt &&& winLast ≠ 0 ∧
      (name.bytes.length : Int) - (((cnt - 1) * winChars : Nat) : Int) > (winChars : Nat)) := by
    rintro ⟨hbit, hgt⟩
    rw [name.weCnt] at hbit
    split at hbit
    · omega
    · exact hbit hbitMid
  simp only [winChkName, hsum, if_neg (stored_ne chksum), hnum, hi]
  rw [if_neg (by omega), if_neg hshort, Int.toNat_natCast]
  rcases chkEntry u2l (name.filled cnt chksum) with ⟨rest, hrest⟩ | htrue
  · rw [show name.bytes.drop ((cnt - 1) * winChars) = name.rest cnt from rfl, hrest]
  · rw [show name.bytes.drop ((cnt - 1) * winChars) = name.rest cnt from rfl, htrue]
    rfl

/-- Every name comes back from its entries, read from the last to the
first, with its length; each entry is recognised by the name; and no entry
at all makes `win2unixfn` write past `d_name`. -/
theorem long_name_round_trip (name : LongName) (chksum : Int) (u2l : Byte → Byte) (dp : Dirent)
    (c : Int) :
    (readDown name.bytes chksum (winSlotCnt name.bytes) (dp, c)).2 ≠ -1
    ∧ (readDown name.bytes chksum (winSlotCnt name.bytes) (dp, c)).1.dNamlen.toNat =
        name.bytes.length
    ∧ (List.range name.bytes.length).map
        (readDown name.bytes chksum (winSlotCnt name.bytes) (dp, c)).1.dName = name.bytes
    ∧ (∀ cnt, 0 < cnt → cnt ≤ winSlotCnt name.bytes → ∀ c',
        (cnt = winSlotCnt name.bytes ∨ c' = stored chksum) →
        winChkName u2l name.bytes (unix2winfn name.bytes cnt chksum).1 c' = stored chksum
        ∧ winChkName u2l name.bytes (unix2winfn name.bytes cnt chksum).1 c' ≠ -1)
    ∧ (∀ (wep : Winentry) (dp' : Dirent) (c' : Int) (i : Nat), dNameSize ≤ i →
        (win2unixfn wep dp' c').1.dName i = dp'.dName i) := by
  obtain ⟨-, -, hpos, -⟩ := name.slots
  obtain ⟨k, hk⟩ : ∃ k, winSlotCnt name.bytes = k + 1 := ⟨_, (Nat.sub_add_cancel hpos).symm⟩
  have hread : ReadFrom name chksum 0
      (readDown name.bytes chksum (winSlotCnt name.bytes) (dp, c)) := by
    rw [hk]
    show ReadFrom name chksum 0 (readDown name.bytes chksum k
      (win2unixfn (unix2winfn name.bytes (k + 1) chksum).1 dp c))
    exact name.readDown chksum (by omega) (name.read_last chksum hk.symm dp c)
  refine ⟨?_, ?_, ?_, ?_, win2unixfn_inside⟩
  · rw [hread.sum]
    exact stored_ne chksum
  · rw [hread.namlen, BitVec.toNat_ofNat]
    exact Nat.mod_eq_of_lt (Nat.lt_of_le_of_lt name.le (by decide))
  · refine List.ext_getElem (by rw [List.length_map, List.length_range]) fun i hi hi' => ?_
    rw [List.getElem_map, List.getElem_range]
    exact hread.bytes i hi' (by omega)
  · intro cnt hpos' hle c' hc
    have hok := name.recognised chksum u2l hpos' hle hc
    exact ⟨hok, by rw [hok]; exact stored_ne chksum⟩

end Obsd.Msdos
