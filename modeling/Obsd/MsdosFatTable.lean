import Mathlib
import Obsd.MsdosFat
import Obsd.Word

/-!
# The table behind the blocks

The table of a volume is the bytes of its current copy, and an entry is a
number in one to three of them. `setEntry` changes an entry and nothing
else; reading and changing an entry in the buffer of a block is reading and
changing it in the table.
-/

namespace Obsd.Fat

/-! ## Entries in words -/

/-- The bytes that are read and written for an entry. -/
def FatType.bytes : FatType → Nat
  | fat32 => 4
  | _ => 2

/-- The values of an entry are below this. -/
def FatType.values : FatType → Nat
  | fat12 => 2 ^ 12
  | fat16 => 2 ^ 16
  | fat32 => 2 ^ 28

/-- The entry in the word `x`, which for the odd entries of a 12-bit table
is the upper part of it. -/
def FatType.decode (t : FatType) (odd : Bool) (x : Nat) : Nat :=
  match t with
  | fat12 => if odd then x / 16 % 2 ^ 12 else x % 2 ^ 12
  | fat16 => x % 2 ^ 16
  | fat32 => x % 2 ^ 28

/-- The word `x` with another entry. -/
def FatType.encode (t : FatType) (odd : Bool) (x new : Nat) : Nat :=
  match t with
  | fat12 => if odd then x % 16 + 16 * (new % 2 ^ 12) else x / 2 ^ 12 * 2 ^ 12 + new % 2 ^ 12
  | fat16 => new % 2 ^ 16
  | fat32 => x / 2 ^ 28 * 2 ^ 28 + new % 2 ^ 28

theorem decode_encode (t : FatType) (odd : Bool) (x new : Nat) :
    t.decode odd (t.encode odd x new) = new % t.values := by
  cases t <;> cases odd <;> simp only [FatType.decode, FatType.encode, FatType.values,
    if_true, if_false, Bool.false_eq_true] <;> omega

theorem putLe_mod_two (m : Mem) (o x : Nat) : putLe m o 2 (x % 2 ^ 16) = putLe m o 2 x := by
  funext a
  unfold putLe
  split
  · rename_i h
    refine UInt8.toNat_inj.mp ?_
    rw [UInt8.toNat_ofNat', UInt8.toNat_ofNat']
    obtain ha | ha : a - o = 0 ∨ a - o = 1 := by omega
    · rw [ha]
      omega
    · rw [ha]
      omega
  · rfl

/-- The low bits of a word replaced, as the code does it. -/
theorem toNat_replace_low {k : Nat} (hk : k ≤ 32) (x new m : BitVec 32)
    (hm : m = BitVec.ofNat 32 (2 ^ k - 1)) :
    (x &&& ~~~m ||| new &&& m).toNat = x.toNat / 2 ^ k * 2 ^ k + new.toNat % 2 ^ k := by
  have hpow : 2 ^ k ≤ 2 ^ 32 := Nat.pow_le_pow_right (by decide) hk
  have hpos : 0 < 2 ^ k := Nat.two_pow_pos k
  have hmn : m.toNat = 2 ^ k - 1 := by
    rw [hm, BitVec.toNat_ofNat, Nat.mod_eq_of_lt (by omega)]
  have hlow : ∀ y : BitVec 32, (y &&& m).toNat = y.toNat % 2 ^ k := by
    intro y
    rw [BitVec.toNat_and, hmn, Nat.and_two_pow_sub_one_eq_mod]
  have hhigh : (x &&& ~~~m).toNat = x.toNat / 2 ^ k * 2 ^ k := by
    have hsub : x &&& ~~~m = x - (x &&& m) :=
      BitVec.eq_sub_iff_add_eq.mpr (Word.and_add_and_not x m)
    have hle : x &&& m ≤ x := by
      rw [BitVec.le_def, hlow]
      exact Nat.mod_le _ _
    rw [hsub, BitVec.toNat_sub_of_le hle, hlow]
    have hdiv := Nat.div_add_mod' x.toNat (2 ^ k)
    omega
  rw [BitVec.toNat_or, hhigh, hlow, ← Nat.shiftLeft_eq,
    ← Nat.shiftLeft_add_eq_or_of_lt (Nat.mod_lt _ hpos), Nat.shiftLeft_eq]

theorem toNat_ofNat_getLe {m : Mem} {o : Nat} :
    (BitVec.ofNat 32 (getLe m o 2)).toNat = getLe m o 2
      ∧ (BitVec.ofNat 32 (getLe m o 4)).toNat = getLe m o 4 := by
  have h2 := (m o).toNat_lt
  have h3 := (m (o + 1)).toNat_lt
  have h4 := (m (o + 1 + 1)).toNat_lt
  have h5 := (m (o + 1 + 1 + 1)).toNat_lt
  simp only [BitVec.toNat_ofNat, getLe]
  omega

/-- The odd entry of a 12-bit table, as the code sets it. -/
theorem toNat_replace_odd (x new : BitVec 32) :
    (x &&& (0xf : BitVec 32) ||| new <<< 4).toNat % 2 ^ 16 = x.toNat % 16 + 16 * (new.toNat % 2 ^ 12) := by
  have hlow : (x &&& 0xf).toNat = x.toNat % 16 := by
    exact Nat.and_two_pow_sub_one_eq_mod x.toNat 4
  have hhigh : (new <<< 4).toNat = (new.toNat % 2 ^ 28) <<< 4 := by
    rw [BitVec.toNat_shiftLeft, Nat.shiftLeft_eq, Nat.shiftLeft_eq]
    omega
  rw [BitVec.toNat_or, hlow, hhigh, Nat.or_comm,
    ← Nat.shiftLeft_add_eq_or_of_lt (show x.toNat % 16 < 2 ^ 4 by omega), Nat.shiftLeft_eq]
  omega

/-- The even entry of a 12-bit table, as the code sets it. -/
theorem toNat_replace_even (x new : BitVec 32) (hx : x.toNat < 2 ^ 16) :
    (x &&& 0xf000 ||| new &&& 0xfff).toNat
      = x.toNat / 2 ^ 12 * 2 ^ 12 + new.toNat % 2 ^ 12 := by
  have hmask : x &&& 0xf000 = x &&& ~~~0xfff := by
    have hfit : x &&& 0xffff = x := by
      refine BitVec.eq_of_toNat_eq ?_
      exact (Nat.and_two_pow_sub_one_eq_mod x.toNat 16).trans (Nat.mod_eq_of_lt hx)
    have hsplit : (0xf000 : BitVec 32) = 0xffff &&& ~~~0xfff := by decide
    rw [hsplit, ← BitVec.and_assoc, hfit]
  rw [hmask]
  exact toNat_replace_low (by decide) x new 0xfff rfl

/-! ## Entries in buffers -/

section

variable {v : Volume} {buf : Buf} {bo cn : Nat}

/-- The buffer with another entry. -/
def setBuf (v : Volume) (buf : Buf) (bo cn : Nat) (new : BitVec 32) : Buf :=
  { buf with
    data := putLe buf.data bo v.type.bytes
      (v.type.encode (cn % 2 = 1) (getLe buf.data bo v.type.bytes) new.toNat) }

theorem getLe_two_lt (m : Mem) (o : Nat) : getLe m o 2 < 2 ^ 16 := by
  have h2 := (m o).toNat_lt
  have h3 := (m (o + 1)).toNat_lt
  simp only [getLe]
  omega

theorem writeEntry_eq (h : bo + v.type.bytes ≤ buf.size) (new : BitVec 32) :
    writeEntry v buf bo cn new = some (setBuf v buf bo cn new) := by
  rw [writeEntry, setBuf]
  cases ht : v.type with
  | fat12 =>
    rw [ht] at h
    have h2 : bo + 2 ≤ buf.size := h
    simp only [getushort, putushort, if_pos h2, Option.bind_eq_bind, Option.bind_some,
      FatType.bytes, FatType.encode]
    refine congrArg (fun d => some { buf with data := d }) ?_
    by_cases hodd : cn % 2 = 1
    · rw [if_pos hodd, decide_eq_true hodd, if_pos rfl, ← putLe_mod_two, toNat_replace_odd,
        toNat_ofNat_getLe.1]
    · rw [if_neg hodd, decide_eq_false hodd, if_neg (by decide), toNat_replace_even,
        toNat_ofNat_getLe.1]
      rw [toNat_ofNat_getLe.1]
      exact getLe_two_lt _ _
  | fat16 =>
    rw [ht] at h
    have h2 : bo + 2 ≤ buf.size := h
    simp only [putushort, if_pos h2, FatType.bytes, FatType.encode, putLe_mod_two]
  | fat32 =>
    rw [ht] at h
    have h4 : bo + 4 ≤ buf.size := h
    simp only [getulong, putulong, if_pos h4, Option.bind_eq_bind, Option.bind_some,
      FatType.bytes, FatType.encode]
    rw [toNat_replace_low (show 28 ≤ 32 by decide) _ _ 0xfffffff rfl, toNat_ofNat_getLe.2]

/-- fatchain sets an entry as fatentry does. -/
theorem chainEntry_eq (new : BitVec 32) :
    chainEntry v buf bo (cn + 1) new = writeEntry v buf bo cn new := by
  rw [chainEntry, writeEntry]
  cases ht : v.type with
  | fat12 =>
    have hpar : (cn + 1) % 2 = 1 ↔ ¬ cn % 2 = 1 := by omega
    simp only [hpar, ite_not]
  | fat16 => rfl
  | fat32 => rfl

/-- The next cluster as the code finds it in the word of an entry. -/
theorem and_mask_eq (t : FatType) (odd : Bool) (x : Nat) (hx : x < 2 ^ 32) :
    (if t = .fat12 ∧ odd = true then BitVec.ofNat 32 x >>> 4 else BitVec.ofNat 32 x) &&& t.mask
      = BitVec.ofNat 32 (t.decode odd x) := by
  have hmod : ∀ (y : BitVec 32) (k : Nat), k < 32 →
      y &&& BitVec.ofNat 32 (2 ^ k - 1) = BitVec.ofNat 32 (y.toNat % 2 ^ k) := by
    intro y k hk
    have hpow : 2 ^ k < 2 ^ 32 := Nat.pow_lt_pow_right (by decide) hk
    refine BitVec.eq_of_toNat_eq ?_
    rw [BitVec.toNat_and, BitVec.toNat_ofNat, BitVec.toNat_ofNat, Nat.mod_eq_of_lt (by omega),
      Nat.and_two_pow_sub_one_eq_mod, Nat.mod_eq_of_lt (by omega : y.toNat % 2 ^ k < 2 ^ 32)]
  have hnat : (BitVec.ofNat 32 x).toNat = x := by
    rw [BitVec.toNat_ofNat, Nat.mod_eq_of_lt hx]
  have hshift : (BitVec.ofNat 32 x >>> 4).toNat = x / 16 := by
    rw [BitVec.toNat_ushiftRight, hnat, Nat.shiftRight_eq_div_pow]
  cases t with
  | fat12 =>
    cases odd with
    | true =>
      rw [if_pos ⟨rfl, rfl⟩]
      exact (hmod _ 12 (by decide)).trans (by rw [hshift]; rfl)
    | false =>
      rw [if_neg (by decide)]
      exact (hmod _ 12 (by decide)).trans (by rw [hnat]; rfl)
  | fat16 =>
    rw [if_neg (by simp)]
    exact (hmod _ 16 (by decide)).trans (by rw [hnat]; rfl)
  | fat32 =>
    rw [if_neg (by simp)]
    exact (hmod _ 28 (by decide)).trans (by rw [hnat]; rfl)

/-- An entry as fatentry returns it: reserved values are the same for all
kinds of tables. -/
def Volume.mapped (v : Volume) (x : BitVec 32) : BitVec 32 :=
  if clustRsrvd ≤ x ||| ~~~v.type.mask then x ||| ~~~v.type.mask else x

theorem getLe_lt (t : FatType) (m : Mem) (o : Nat) : getLe m o t.bytes < 2 ^ 32 := by
  cases t with
  | fat32 => exact toNat_ofNat_getLe.2 ▸ (BitVec.ofNat 32 (getLe m o 4)).isLt
  | _ => exact (getLe_two_lt m o).trans (by decide)

/-- The word of an entry in a buffer. -/
theorem getWord_eq (h : bo + v.type.bytes ≤ buf.size) :
    (if v.type = .fat32 then getulong buf bo else getushort buf bo)
      = some (BitVec.ofNat 32 (getLe buf.data bo v.type.bytes)) := by
  cases ht : v.type with
  | fat32 =>
    rw [ht] at h
    exact if_pos h
  | fat12 =>
    rw [ht] at h
    exact if_pos h
  | fat16 =>
    rw [ht] at h
    exact if_pos h

theorem readEntry_eq (h : bo + v.type.bytes ≤ buf.size) :
    readEntry v buf bo cn = some (v.mapped (BitVec.ofNat 32
      (v.type.decode (cn % 2 = 1) (getLe buf.data bo v.type.bytes)))) := by
  rw [readEntry, getWord_eq h, Option.bind_eq_bind, Option.bind_some]
  have hand := and_mask_eq v.type (cn % 2 = 1) (getLe buf.data bo v.type.bytes)
    (getLe_lt v.type buf.data bo)
  simp only [decide_eq_true_eq] at hand
  simp only [hand, Volume.mapped]

/-- freeclusterchain sets an entry as fatentry does, and follows what it
was. -/
theorem freeEntry_eq (h : bo + v.type.bytes ≤ buf.size) :
    ∃ next, freeEntry v buf bo cn = some (setBuf v buf bo cn msdosfsfree, next)
      ∧ next &&& v.type.mask = BitVec.ofNat 32
        (v.type.decode (cn % 2 = 1) (getLe buf.data bo v.type.bytes)) := by
  have hand := and_mask_eq v.type (cn % 2 = 1) (getLe buf.data bo v.type.bytes)
    (getLe_lt v.type buf.data bo)
  simp only [decide_eq_true_eq] at hand
  have hwrite : writeEntry v buf bo cn msdosfsfree = _ := writeEntry_eq h msdosfsfree
  rw [writeEntry] at hwrite
  rw [freeEntry]
  cases ht : v.type with
  | fat12 =>
    rw [ht] at h hwrite hand
    have h2 : bo + 2 ≤ buf.size := h
    simp only [getushort, if_pos h2, Option.bind_eq_bind, Option.bind_some] at hwrite ⊢
    rw [hwrite]
    refine ⟨_, rfl, ?_⟩
    rw [← hand]
    simp only [true_and]
    rfl
  | fat16 =>
    rw [ht] at h hwrite hand
    have h2 : bo + 2 ≤ buf.size := h
    simp only [getushort, if_pos h2, Option.bind_eq_bind, Option.bind_some] at hwrite ⊢
    rw [hwrite]
    refine ⟨_, rfl, ?_⟩
    rw [← hand, if_neg (by simp)]
    rfl
  | fat32 =>
    rw [ht] at h hwrite hand
    have h4 : bo + 4 ≤ buf.size := h
    simp only [getulong, if_pos h4, Option.bind_eq_bind, Option.bind_some] at hwrite ⊢
    rw [BitVec.or_comm, hwrite]
    refine ⟨_, rfl, ?_⟩
    rw [← hand, if_neg (by simp)]
    rfl

end

/-! ## Blocks and the table -/

section

variable (v : Volume)

/-- Where the current copy of the table starts on the device. -/
def Volume.base : Nat := (v.fatblk + v.curfat * v.fatSecs) * devBsize

/-- The bytes of the table. -/
def Volume.table (disk : Mem) : Mem := fun a =>
  if a < v.fatSecs * devBsize then disk (v.base + a) else 0

/-- The entry of a cluster. -/
def Volume.entry (tab : Mem) (cn : Nat) : Nat :=
  v.type.decode (cn % 2 = 1) (getLe tab (v.fatofs cn) v.type.bytes)

/-- The table with another entry for a cluster. -/
def Volume.setEntry (tab : Mem) (cn : Nat) (new : BitVec 32) : Mem :=
  putLe tab (v.fatofs cn) v.type.bytes
    (v.type.encode (cn % 2 = 1) (getLe tab (v.fatofs cn) v.type.bytes) new.toNat)

/-- The first byte of the block with the entry of a cluster. -/
def Volume.blkStart (cn : Nat) : Nat := v.fatofs cn / v.fatblocksize * v.fatblocksize

theorem Volume.blocksize_eq : v.fatblocksize = v.fatblocksec * devBsize := by
  refine (Nat.div_mul_cancel ?_).symm
  unfold Volume.fatblocksize
  cases v.type with
  | fat12 => exact Dvd.dvd.mul_left (Nat.dvd_mul_left devBsize v.blkPerSec) 3
  | _ => exact ⟨128, rfl⟩

theorem Volume.blocksize_pos : 0 < v.fatblocksize := by
  unfold Volume.fatblocksize
  have hpos := v.blk_pos
  cases v.type with
  | fat12 => exact Nat.mul_pos (by decide) (Nat.mul_pos hpos (by decide))
  | _ => exact Nat.zero_lt_succ 65535

variable {v} {cn : Nat}

theorem fatofs_eq (h : cn ≤ v.maxcluster) : v.fatofs cn = cn * v.type.mult / v.type.div := by
  have hfits := v.fits
  have hlt : v.fatSecs * devBsize % 2 ^ 32 < 2 ^ 32 := Nat.mod_lt _ (by decide)
  refine congrArg (· / v.type.div) (Nat.mod_eq_of_lt ?_)
  generalize v.fatSecs * devBsize % 2 ^ 32 = size at hfits hlt
  cases ht : v.type with
  | fat12 =>
    have hfew := v.few ht
    show cn * 3 < _
    omega
  | fat16 =>
    rw [ht] at hfits
    have hfits' : v.maxcluster < size / 2 * 1 := hfits
    show cn * 2 < _
    omega
  | fat32 =>
    rw [ht] at hfits
    have hfits' : v.maxcluster < size / 4 * 1 := hfits
    show cn * 4 < _
    omega

theorem Volume.maxcluster_lt (v : Volume) : v.maxcluster < 2 ^ 31 := by
  have hfits := v.fits
  have hlt : v.fatSecs * devBsize % 2 ^ 32 < 2 ^ 32 := Nat.mod_lt _ (by decide)
  generalize v.fatSecs * devBsize % 2 ^ 32 = size at hfits hlt
  cases ht : v.type with
  | fat12 =>
    have hfew := v.few ht
    omega
  | fat16 =>
    rw [ht] at hfits
    have hfits' : v.maxcluster < size / 2 * 1 := hfits
    omega
  | fat32 =>
    rw [ht] at hfits
    have hfits' : v.maxcluster < size / 4 * 1 := hfits
    omega

/-- The entry of a cluster lies in the table. -/
theorem fatofs_inside (h : cn ≤ v.maxcluster) :
    v.fatofs cn + v.type.bytes ≤ v.fatSecs * devBsize := by
  have hfits := v.fits
  have hle : v.fatSecs * devBsize % 2 ^ 32 ≤ v.fatSecs * devBsize := Nat.mod_le _ _
  rw [fatofs_eq h]
  generalize v.fatSecs * devBsize % 2 ^ 32 = size at hfits hle
  generalize v.fatSecs * devBsize = full at hle ⊢
  cases ht : v.type with
  | fat12 =>
    rw [ht] at hfits
    have hfits' : v.maxcluster < size / 3 * 2 := hfits
    show cn * 3 / 2 + 2 ≤ full
    omega
  | fat16 =>
    rw [ht] at hfits
    have hfits' : v.maxcluster < size / 2 * 1 := hfits
    show cn * 2 / 1 + 2 ≤ full
    omega
  | fat32 =>
    rw [ht] at hfits
    have hfits' : v.maxcluster < size / 4 * 1 := hfits
    show cn * 4 / 1 + 4 ≤ full
    omega

/-- No entry is split across blocks. -/
theorem entry_in_block (h : cn ≤ v.maxcluster) :
    v.fatofs cn % v.fatblocksize + v.type.bytes ≤ v.fatblocksize := by
  have hpos := v.blocksize_pos
  have hlt := Nat.mod_lt (v.fatofs cn) hpos
  have hdiv := Nat.div_add_mod (v.fatofs cn) v.fatblocksize
  rw [fatofs_eq h] at hdiv hlt ⊢
  unfold Volume.fatblocksize at hdiv hlt ⊢
  cases ht : v.type with
  | fat12 =>
    simp only [ht, FatType.mult, FatType.div, FatType.bytes] at hdiv hlt ⊢
    rw [Nat.mul_assoc] at hdiv
    omega
  | fat16 =>
    simp only [ht, FatType.mult, FatType.div, FatType.bytes, maxbsize] at hdiv hlt ⊢
    omega
  | fat32 =>
    simp only [ht, FatType.mult, FatType.div, FatType.bytes, maxbsize] at hdiv hlt ⊢
    omega

/-- The block that fatblock gives for the entry of a cluster: a stretch of
the table with the entry inside. -/
theorem fatblock_spec (h : cn ≤ v.maxcluster) :
    (fatblock v (v.fatofs cn)).bn * devBsize = v.base + v.blkStart cn
    ∧ v.blkStart cn + (fatblock v (v.fatofs cn)).bo = v.fatofs cn
    ∧ (fatblock v (v.fatofs cn)).bo + v.type.bytes ≤ (fatblock v (v.fatofs cn)).size
    ∧ v.blkStart cn + (fatblock v (v.fatofs cn)).size ≤ v.fatSecs * devBsize := by
  have hin := fatofs_inside h
  have hblk := entry_in_block h
  have hsize := v.blocksize_eq
  have hstart : v.blkStart cn + v.fatofs cn % v.fatblocksize = v.fatofs cn :=
    Nat.div_add_mod' _ _
  have hsecs : v.blkStart cn = v.fatofs cn / v.fatblocksize * v.fatblocksec * devBsize := by
    rw [Volume.blkStart, Nat.mul_assoc, ← hsize]
  refine ⟨?_, hstart, ?_, ?_⟩
  · show (v.fatofs cn / v.fatblocksize * v.fatblocksec + (v.fatblk + v.curfat * v.fatSecs))
      * devBsize = _
    rw [Nat.add_mul, ← hsecs, Nat.add_comm]
    rfl
  · show v.fatofs cn % v.fatblocksize + v.type.bytes ≤ min v.fatblocksec (v.fatSecs -
      v.fatofs cn / v.fatblocksize * v.fatblocksec) * devBsize
    rw [← Nat.mul_min_mul_right, Nat.sub_mul, ← hsecs, ← hsize]
    exact le_min hblk (by omega)
  · show v.blkStart cn + min v.fatblocksec (v.fatSecs -
      v.fatofs cn / v.fatblocksize * v.fatblocksec) * devBsize ≤ _
    rw [← Nat.mul_min_mul_right, Nat.sub_mul, ← hsecs, ← hsize]
    omega

/-- The buffer holds the stretch of the table from `start` on. -/
def Holds (tab : Mem) (start : Nat) (buf : Buf) : Prop := ∀ i < buf.size, buf.data i = tab (start + i)

/-- The table with the buffer written to it. -/
def overlay (tab : Mem) (start : Nat) (buf : Buf) : Mem := fun a =>
  if start ≤ a ∧ a < start + buf.size then buf.data (a - start) else tab a

theorem Holds.overlay {tab tab' : Mem} {start : Nat} {buf : Buf} (h : Holds tab' start buf)
    (hout : ∀ a, a < start ∨ start + buf.size ≤ a → tab' a = tab a) :
    overlay tab start buf = tab' := by
  funext a
  unfold Fat.overlay
  split
  · rename_i ha
    rw [h (a - start) (by omega), Nat.add_sub_cancel' ha.1]
  · exact (hout a (by omega)).symm

theorem bread_holds {d : Mem} {io : Nat → Bool} (h : cn ≤ v.maxcluster)
    (hio : io (fatblock v (v.fatofs cn)).bn = true) :
    ∃ buf, bread io d (fatblock v (v.fatofs cn)) = some buf
      ∧ buf.size = (fatblock v (v.fatofs cn)).size ∧ Holds (v.table d) (v.blkStart cn) buf := by
  obtain ⟨hbn, -, -, hend⟩ := fatblock_spec h
  refine ⟨_, if_pos hio, rfl, fun i hi => ?_⟩
  show d ((fatblock v (v.fatofs cn)).bn * devBsize + i) = v.table d (v.blkStart cn + i)
  have hi' : i < (fatblock v (v.fatofs cn)).size := hi
  rw [hbn, Volume.table, if_pos (by omega), Nat.add_assoc]

/-- Writing a block to the copies changes the table as it should. -/
theorem table_updatefats {disk : Mem} {bn start : Nat} {b : Buf}
    (hbn : bn * devBsize = v.base + start) (hend : start + b.size ≤ v.fatSecs * devBsize) :
    v.table (updatefats v disk bn b) = overlay (v.table disk) start b := by
  have hcopies : ∀ (copies : List Nat) (d : Mem), (∀ i ∈ copies, 1 ≤ i) →
      ∀ a < v.fatSecs * devBsize,
        copies.foldl (fun d i => bwrite d (bn + i * v.fatSecs) b) d (v.base + a)
          = d (v.base + a) := by
    intro copies
    induction copies with
    | nil => exact fun d _ a _ => rfl
    | cons i copies ih =>
      intro d hpos a ha
      rw [List.foldl_cons, ih _ (fun j hj => hpos j (List.mem_cons_of_mem _ hj)) a ha]
      have hi : v.fatSecs * devBsize ≤ i * v.fatSecs * devBsize := by
        rw [Nat.mul_assoc]
        exact Nat.le_mul_of_pos_left _ (hpos i List.mem_cons_self)
      refine if_neg fun h => ?_
      rw [Nat.add_mul, hbn] at h
      omega
  funext a
  by_cases ha : a < v.fatSecs * devBsize
  · have hrest := hcopies (if v.mirror then List.range' 1 (v.fats - 1) else []) disk (by
      intro i hi
      split at hi
      · exact (List.mem_range'_1.mp hi).1
      · cases hi) a ha
    rw [Volume.table, if_pos ha, overlay]
    show bwrite _ bn b (v.base + a) = _
    by_cases hin : start ≤ a ∧ a < start + b.size
    · rw [if_pos hin, bwrite, if_pos (by omega), hbn, Nat.add_sub_add_left]
    · rw [if_neg hin, bwrite, if_neg (by omega), Volume.table, if_pos ha]
      exact hrest
  · rw [Volume.table, if_neg ha, overlay, if_neg (by omega), Volume.table, if_neg ha]

theorem Holds.getLe_eq {tab : Mem} {start bo n : Nat} {buf : Buf} (h : Holds tab start buf)
    (hin : bo + n ≤ buf.size) : getLe buf.data bo n = getLe tab (start + bo) n := by
  induction n generalizing bo with
  | zero => rfl
  | succ n ih =>
    rw [getLe, getLe, h bo (by omega), ih (by omega), Nat.add_assoc]

theorem Holds.set {tab : Mem} {start bo : Nat} {buf : Buf} (h : Holds tab start buf)
    (hin : bo + v.type.bytes ≤ buf.size) (hofs : start + bo = v.fatofs cn) (new : BitVec 32) :
    Holds (v.setEntry tab cn new) start (setBuf v buf bo cn new) := by
  intro i hi
  rw [Volume.setEntry, setBuf, ← hofs, h.getLe_eq hin]
  show putLe buf.data bo _ _ i = putLe tab (start + bo) _ _ (start + i)
  unfold putLe
  by_cases hi' : bo ≤ i ∧ i < bo + v.type.bytes
  · rw [if_pos hi', if_pos (by omega), Nat.add_sub_add_left]
  · rw [if_neg hi', if_neg (by omega), h i hi]

theorem setEntry_of_outside {tab : Mem} {a : Nat} (new : BitVec 32)
    (h : a < v.fatofs cn ∨ v.fatofs cn + v.type.bytes ≤ a) : v.setEntry tab cn new a = tab a :=
  putLe_of_outside h

theorem Holds.entry {tab : Mem} {start bo : Nat} {buf : Buf} (h : Holds tab start buf)
    (hin : bo + v.type.bytes ≤ buf.size) (hofs : start + bo = v.fatofs cn) :
    v.type.decode (cn % 2 = 1) (getLe buf.data bo v.type.bytes) = v.entry tab cn := by
  rw [Volume.entry, ← hofs, h.getLe_eq hin]

/-! ## Entries of the table -/

theorem encode_lt (t : FatType) (odd : Bool) {x : Nat} (new : Nat) (hx : x < 256 ^ t.bytes) :
    t.encode odd x new < 256 ^ t.bytes := by
  cases t <;> cases odd <;> simp only [FatType.encode, FatType.bytes, if_true, if_false,
    Bool.false_eq_true] at hx ⊢ <;> omega

theorem getLe_lt_pow (t : FatType) (m : Mem) (o : Nat) : getLe m o t.bytes < 256 ^ t.bytes := by
  cases t with
  | fat32 => exact getLe_lt .fat32 m o
  | _ => exact getLe_two_lt m o

/-- The word of an entry after the entry is set. -/
theorem getLe_setEntry (tab : Mem) (new : BitVec 32) :
    getLe (v.setEntry tab cn new) (v.fatofs cn) v.type.bytes
      = v.type.encode (cn % 2 = 1) (getLe tab (v.fatofs cn) v.type.bytes) new.toNat :=
  getLe_putLe (encode_lt _ _ _ (getLe_lt_pow _ _ _))

theorem entry_setEntry_self (tab : Mem) (new : BitVec 32) :
    v.entry (v.setEntry tab cn new) cn = new.toNat % v.type.values := by
  rw [Volume.entry, getLe_setEntry, decode_encode]

/-- An even entry of a 12-bit table leaves the odd one it shares a byte
with. -/
theorem odd_of_even (m : Mem) (o new : Nat) :
    FatType.decode .fat12 true (getLe (putLe m o 2 (FatType.encode .fat12 false (getLe m o 2) new))
      (o + 1) 2) = FatType.decode .fat12 true (getLe m (o + 1) 2) := by
  have h0 := (m o).toNat_lt
  have h1 := (m (o + 1)).toNat_lt
  obtain ⟨x, hx⟩ : ∃ x, FatType.encode .fat12 false (getLe m o 2) new = x := ⟨_, rfl⟩
  have hmid : (putLe m o 2 x (o + 1)).toNat = x / 256 % 256 := by
    rw [putLe, if_pos (by omega), Nat.add_sub_cancel_left, UInt8.toNat_ofNat']
    omega
  have hlast : putLe m o 2 x (o + 1 + 1) = m (o + 1 + 1) := putLe_of_outside (by omega)
  rw [hx]
  simp only [getLe, FatType.encode, if_false, Bool.false_eq_true] at hx
  simp only [getLe, hmid, hlast, FatType.decode, if_true]
  omega

/-- And the other way round. -/
theorem even_of_odd (m : Mem) (o new : Nat) :
    FatType.decode .fat12 false (getLe (putLe m (o + 1) 2
      (FatType.encode .fat12 true (getLe m (o + 1) 2) new)) o 2)
      = FatType.decode .fat12 false (getLe m o 2) := by
  obtain ⟨x, hx⟩ : ∃ x, FatType.encode .fat12 true (getLe m (o + 1) 2) new = x := ⟨_, rfl⟩
  have hfirst : putLe m (o + 1) 2 x o = m o := putLe_of_outside (by omega)
  have hmid : (putLe m (o + 1) 2 x (o + 1)).toNat = x % 256 := by
    rw [putLe, if_pos (by omega), Nat.sub_self, UInt8.toNat_ofNat']
    omega
  rw [hx]
  simp only [getLe, FatType.encode, if_true] at hx
  simp only [getLe, hmid, hfirst, FatType.decode, if_false, Bool.false_eq_true]
  omega

theorem entry_setEntry_of_ne {cn' : Nat} (tab : Mem) (new : BitVec 32) (h : cn ≤ v.maxcluster)
    (h' : cn' ≤ v.maxcluster) (hne : cn' ≠ cn) :
    v.entry (v.setEntry tab cn new) cn' = v.entry tab cn' := by
  have hofs := fatofs_eq h
  have hofs' := fatofs_eq h'
  rw [Volume.entry, Volume.entry, Volume.setEntry]
  cases ht : v.type with
  | fat12 =>
    rw [ht] at hofs hofs'
    replace hofs : v.fatofs cn = cn * 3 / 2 := hofs
    replace hofs' : v.fatofs cn' = cn' * 3 / 2 := hofs'
    have hhalf : cn * 3 / 2 = 3 * (cn / 2) + cn % 2 := by omega
    by_cases hpair : cn / 2 = cn' / 2
    · rcases Nat.mod_two_eq_zero_or_one cn with he | ho
      · have ho' : cn' % 2 = 1 := by omega
        have hnext : v.fatofs cn' = v.fatofs cn + 1 := by omega
        rw [decide_eq_true ho', decide_eq_false (by omega : ¬ cn % 2 = 1), hnext]
        exact odd_of_even tab (v.fatofs cn) new.toNat
      · have he' : ¬ cn' % 2 = 1 := by omega
        have hnext : v.fatofs cn = v.fatofs cn' + 1 := by omega
        rw [decide_eq_false he', decide_eq_true ho, hnext]
        exact even_of_odd tab (v.fatofs cn') new.toNat
    · refine congrArg _ (getLe_putLe_of_disjoint ?_)
      show v.fatofs cn' + 2 ≤ v.fatofs cn ∨ v.fatofs cn + 2 ≤ v.fatofs cn'
      omega
  | fat16 =>
    rw [ht] at hofs hofs'
    replace hofs : v.fatofs cn = cn * 2 / 1 := hofs
    replace hofs' : v.fatofs cn' = cn' * 2 / 1 := hofs'
    refine congrArg _ (getLe_putLe_of_disjoint ?_)
    show v.fatofs cn' + 2 ≤ v.fatofs cn ∨ v.fatofs cn + 2 ≤ v.fatofs cn'
    omega
  | fat32 =>
    rw [ht] at hofs hofs'
    replace hofs : v.fatofs cn = cn * 4 / 1 := hofs
    replace hofs' : v.fatofs cn' = cn' * 4 / 1 := hofs'
    refine congrArg _ (getLe_putLe_of_disjoint ?_)
    show v.fatofs cn' + 4 ≤ v.fatofs cn ∨ v.fatofs cn + 4 ≤ v.fatofs cn'
    omega

/-- The reserved bits of a 32-bit entry. -/
def Volume.reserved (v : Volume) (tab : Mem) (cn : Nat) : Nat :=
  if v.type = .fat32 then getLe tab (v.fatofs cn) 4 / 2 ^ 28 else 0

theorem reserved_setEntry {cn' : Nat} (tab : Mem) (new : BitVec 32) (h : cn ≤ v.maxcluster)
    (h' : cn' ≤ v.maxcluster) :
    v.reserved (v.setEntry tab cn new) cn' = v.reserved tab cn' := by
  rw [Volume.reserved, Volume.reserved]
  by_cases ht : v.type = .fat32
  · rw [if_pos ht, if_pos ht]
    have hofs := fatofs_eq h
    have hofs' := fatofs_eq h'
    rw [ht] at hofs hofs'
    replace hofs : v.fatofs cn = cn * 4 / 1 := hofs
    replace hofs' : v.fatofs cn' = cn' * 4 / 1 := hofs'
    by_cases hne : cn' = cn
    · have hset : getLe (v.setEntry tab cn new) _ _ = _ := getLe_setEntry tab new
      rw [ht] at hset
      rw [hne]
      refine (congrArg (· / 2 ^ 28) hset).trans ?_
      show (getLe tab (v.fatofs cn) 4 / 2 ^ 28 * 2 ^ 28 + new.toNat % 2 ^ 28) / 2 ^ 28 = _
      omega
    · rw [Volume.setEntry, ht]
      refine congrArg (· / 2 ^ 28) (getLe_putLe_of_disjoint ?_)
      show v.fatofs cn' + 4 ≤ v.fatofs cn ∨ v.fatofs cn + 4 ≤ v.fatofs cn'
      omega
  · rw [if_neg ht, if_neg ht]

end

end Obsd.Fat
