import Mathlib
import Obsd.FfsInode
import Obsd.Runs

/-!
# Inodes, over any run

Only one block of inodes is initialised by an allocation, so no inode may
be taken that is more than one block past those that are. What makes this
true is that the search begins at or before the first inode that is not
initialised (`CgOk.rotor`), and that from there on everything is free
(`CgOk.used`): the first free inode that is found is at most that one. The
preference does not get in the way, as the parent's own inode is in use and
the other preference is the first of a group.
-/

namespace Obsd.Ffs

open Bytes

variable {fs fs' : Fs} {c i : Nat} {a : Bytes}

/-! ## The invariant -/

/-- The inode `ino` is marked as used. -/
def inUse (fs : Fs) (ino : Nat) : Bool := isset (fs.cg (inoToCg fs ino)).cgInosused (ino % fs.fsIpg)

/-- A cylinder group and its summary in the superblock. -/
structure CgOk (ipg inopb : Nat) (cgp : Cg) (cs : Csum) : Prop where
  niblk : cgp.cgFfs2Niblk = ipg
  whole : inopb ∣ cgp.cgInitediblk
  inited : cgp.cgInitediblk ≤ ipg
  used : ∀ i < ipg, isset cgp.cgInosused i = true → i < cgp.cgInitediblk
  rotor : cgp.cgIrotor ≤ cgp.cgInitediblk
  rotorLt : cgp.cgIrotor < ipg
  free : cgp.cgCs.csNifree = clear cgp.cgInosused ipg
  cs : cs.csNifree = cgp.cgCs.csNifree

structure FsOk (fs : Fs) : Prop where
  ncg : 0 < fs.fsNcg
  inopb : 0 < fs.fsInopb
  ipg : 0 < fs.fsIpg
  blocks : fs.fsInopb ∣ fs.fsIpg
  bytes : 8 ∣ fs.fsIpg
  groups : ∀ c < fs.fsNcg, CgOk fs.fsIpg fs.fsInopb (fs.cg c) (fs.fsCs c)
  total : fs.fsCstotal.csNifree = ∑ c ∈ Finset.range fs.fsNcg, (fs.fsCs c).csNifree
  /-- There is no inode 0: it is marked as used. -/
  reserved : isset (fs.cg 0).cgInosused 0 = true

/-! ## Searching -/

theorem findBit_spec (a : Bytes) (n : Nat) : ∀ {ipref : Nat}, (∃ j, ipref ≤ j ∧ j < ipref + n ∧ isclr a j = true) →
    ∃ i, findBit a n ipref = some i ∧ ipref ≤ i ∧ i < ipref + n ∧ isclr a i = true
      ∧ ∀ j, ipref ≤ j → j < i → isset a j = true := by
  induction n with
  | zero =>
    rintro ipref ⟨j, hj, hj', -⟩
    omega
  | succ n ih =>
    rintro ipref ⟨j, hj, hj', hclr⟩
    rw [findBit]
    by_cases hp : isclr a ipref = true
    · rw [if_pos hp]
      exact ⟨ipref, rfl, le_rfl, by omega, hp, fun k hk hk' => by omega⟩
    · rw [if_neg hp]
      have hne : j ≠ ipref := fun h => hp (h ▸ hclr)
      have hrest : ∃ j, ipref + 1 ≤ j ∧ j < ipref + 1 + n ∧ isclr a j = true := ⟨j, by omega, by omega, hclr⟩
      obtain ⟨i, hi, hlo, hhi, hiclr, hbefore⟩ := ih hrest
      refine ⟨i, hi, by omega, by omega, hiclr, fun k hk hk' => ?_⟩
      by_cases hkp : k = ipref
      · rw [hkp]
        rw [isclr, Bool.not_eq_true', Bool.not_eq_false] at hp
        exact hp
      · exact hbefore k (by omega) hk'

/-- A byte that is not full has a clear bit. -/
theorem exists_isclr {b : Nat} (h : a b ≠ 0xff#8) : ∃ j, b * 8 ≤ j ∧ j < b * 8 + 8 ∧ isclr a j = true := by
  by_contra hno
  refine h ((Bitmap.eq_allOnes_iff a b).mpr fun k hk => ?_)
  by_contra hbit
  refine hno ⟨8 * b + k, by omega, by omega, ?_⟩
  rw [isclr, isset, Bool.eq_false_iff.mpr hbit]
  rfl

theorem isset_of_full {j : Nat} (h : a (j / 8) = 0xff#8) : isset a j = true :=
  Bitmap.bit_of_allOnes (by decide) h

/-- The byte found is the first that is not full, from some byte on that is not after the
rotor. -/
theorem findByte_spec {cgp : Cg} (hbytes : 8 ∣ fs.fsIpg) (hrotor : cgp.cgIrotor < fs.fsIpg)
    (hclr : ∃ j < fs.fsIpg, isclr cgp.cgInosused j = true) :
    ∃ b start, findByte fs cgp = some b ∧ start * 8 ≤ cgp.cgIrotor ∧ b * 8 + 8 ≤ fs.fsIpg
      ∧ cgp.cgInosused b ≠ 0xff#8 ∧ ∀ k, start ≤ k → k < b → cgp.cgInosused k = 0xff#8 := by
  obtain ⟨p, hp⟩ := hbytes
  have hend : cgp.cgIrotor / 8 + (fs.fsIpg - cgp.cgIrotor + 7) / 8 = p := by omega
  rw [findByte]
  obtain ⟨h0, hall⟩ | ⟨hpos, hle, hne, hall⟩ :=
    skpc_spec 0xff#8 cgp.cgInosused ((fs.fsIpg - cgp.cgIrotor + 7) / 8) (cgp.cgIrotor / 8)
  · rw [if_pos h0]
    rw [hend] at hall
    -- the clear bit is before the rotor
    obtain ⟨j, hj, hjclr⟩ := hclr
    obtain ⟨h0', hall'⟩ | ⟨hpos', hle', hne', hall'⟩ := skpc_spec 0xff#8 cgp.cgInosused (cgp.cgIrotor / 8 + 1) 0
    · have hset : isset cgp.cgInosused j = true := by
        refine isset_of_full ?_
        by_cases hlow : j / 8 < cgp.cgIrotor / 8
        · exact hall' (j / 8) (Nat.zero_le _) (by omega)
        · exact hall (j / 8) (by omega) (by omega)
      rw [isclr, hset] at hjclr
      cases hjclr
    · rw [if_neg (by omega)]
      refine ⟨_, 0, rfl, by omega, ?_, hne', fun k hk hk' => hall' k hk hk'⟩
      omega
  · rw [if_neg (by omega)]
    refine ⟨_, cgp.cgIrotor / 8, rfl, by omega, ?_, hne, hall⟩
    omega

theorem findInode_spec {inopb : Nat} {cgp : Cg} {cs : Csum} (hbytes : 8 ∣ fs.fsIpg)
    (hc : CgOk fs.fsIpg inopb cgp cs) (hpos : cgp.cgCs.csNifree ≠ 0) :
    ∃ i, findInode fs cgp = some i ∧ i < fs.fsIpg ∧ isclr cgp.cgInosused i = true ∧ i ≤ cgp.cgInitediblk := by
  have hclr : ∃ j < fs.fsIpg, isclr cgp.cgInosused j = true := by
    refine exists_clear ?_
    have hfree := hc.free
    omega
  obtain ⟨b, start, hb, hstart, hend, hne, hbefore⟩ := findByte_spec hbytes hc.rotorLt hclr
  obtain ⟨i, hi, hlo, hhi, hiclr, hbits⟩ := findBit_spec _ 8 (exists_isclr hne)
  refine ⟨i, ?_, by omega, hiclr, ?_⟩
  · rw [findInode, hb]
    exact hi
  · -- otherwise the first inode that is not initialised is before it, and in use
    have hrotor := hc.rotor
    by_contra hgt
    have hset : isset cgp.cgInosused cgp.cgInitediblk = true := by
      by_cases hbyte : cgp.cgInitediblk / 8 < b
      · exact isset_of_full (hbefore _ (by omega) hbyte)
      · exact hbits _ (by omega) (by omega)
    have hlt := hc.used _ (by omega) hset
    omega

/-! ## One inode -/

/-- The file system with another group `c`, the summaries being adjusted by `d`. -/
theorem FsOk.setGroup (h : FsOk fs) (hc : c < fs.fsNcg) {cgp : Cg} {cs total : Csum} {log : List (Nat × Nat)} {d : Int}
    (hcg : CgOk fs.fsIpg fs.fsInopb cgp cs) (hcs : cs.csNifree = (fs.fsCs c).csNifree + d)
    (htotal : total.csNifree = fs.fsCstotal.csNifree + d) (hzero : c = 0 → isset cgp.cgInosused 0 = true) :
    FsOk { fs with
      cg := Function.update fs.cg c cgp
      fsCstotal := total
      fsCs := Function.update fs.fsCs c cs
      zeroed := log } := by
  refine ⟨h.ncg, h.inopb, h.ipg, h.blocks, h.bytes, fun e he => ?_, ?_, ?_⟩
  · dsimp only
    by_cases hec : e = c
    · rw [hec, Function.update_self, Function.update_self]
      exact hcg
    · rw [Function.update_of_ne hec, Function.update_of_ne hec]
      exact h.groups e he
  · dsimp only
    have hmem : c ∈ Finset.range fs.fsNcg := Finset.mem_range.mpr hc
    have hrest : ∑ e ∈ (Finset.range fs.fsNcg).erase c, (Function.update fs.fsCs c cs e).csNifree
        = ∑ e ∈ (Finset.range fs.fsNcg).erase c, (fs.fsCs e).csNifree := by
      refine Finset.sum_congr rfl fun e he => ?_
      rw [Function.update_of_ne (Finset.ne_of_mem_erase he)]
    have hsum := h.total
    rw [← Finset.add_sum_erase _ _ hmem] at hsum ⊢
    rw [hrest, Function.update_self, htotal, hcs, hsum]
    omega
  · dsimp only
    by_cases h0 : 0 = c
    · rw [← h0, Function.update_self]
      exact hzero h0.symm
    · rw [Function.update_of_ne h0]
      exact h.reserved

/-- One block of inodes has been initialised, or none. -/
structure Grown (fs fs' : Fs) : Prop where
  ncg : fs'.fsNcg = fs.fsNcg
  ipg : fs'.fsIpg = fs.fsIpg
  inopb : fs'.fsInopb = fs.fsInopb
  blocks : (fs'.zeroed = fs.zeroed ∧ ∀ c, (fs'.cg c).cgInitediblk = (fs.cg c).cgInitediblk)
    ∨ ∃ c < fs.fsNcg, (fs.cg c).cgInitediblk < fs.fsIpg
      ∧ fs'.zeroed = fs.zeroed ++ [(c, (fs.cg c).cgInitediblk / fs.fsInopb)]
      ∧ (fs'.cg c).cgInitediblk = (fs.cg c).cgInitediblk + fs.fsInopb
      ∧ ∀ e ≠ c, (fs'.cg e).cgInitediblk = (fs.cg e).cgInitediblk

theorem Grown.refl (fs : Fs) : Grown fs fs := ⟨rfl, rfl, rfl, .inl ⟨rfl, fun _ => rfl⟩⟩

theorem block_le {m k n : Nat} (hm : n ∣ m) (hk : n ∣ k) (hlt : m < k) : m + n ≤ k := by
  obtain ⟨p, rfl⟩ := hm
  obtain ⟨q, rfl⟩ := hk
  have hpq : p + 1 ≤ q := Nat.lt_of_mul_lt_mul_left hlt
  calc n * p + n = n * (p + 1) := (Nat.mul_succ n p).symm
    _ ≤ n * q := Nat.mul_le_mul_left n hpq

/-- The inode `i` of the group `c`, at most one past those that are initialised, is taken. -/
theorem gotit_spec (h : FsOk fs) (hc : c < fs.fsNcg) (hi : i < fs.fsIpg)
    (hclr : isclr (fs.cg c).cgInosused i = true) (hle : i ≤ (fs.cg c).cgInitediblk) {r : Nat}
    (hr : r = i ∨ r = (fs.cg c).cgIrotor) (dir : Bool) :
    FsOk (gotit fs c i { fs.cg c with cgIrotor := r } dir).1
      ∧ Grown fs (gotit fs c i { fs.cg c with cgIrotor := r } dir).1
      ∧ isset ((gotit fs c i { fs.cg c with cgIrotor := r } dir).1.cg c).cgInosused i = true
      ∧ (gotit fs c i { fs.cg c with cgIrotor := r } dir).2 = c * fs.fsIpg + i := by
  have hcg := h.groups c hc
  have hrotor := hcg.rotor
  have hrotorLt := hcg.rotorLt
  have hzero : c = 0 → isset (setbit (fs.cg c).cgInosused i) 0 = true := by
    rintro rfl
    rw [isset_setbit, h.reserved, Bool.true_or]
  have hcount := clear_setbit hi hclr
  have hfree := hcg.free
  have hset : isset (setbit (fs.cg c).cgInosused i) i = true := by
    rw [isset_setbit, decide_eq_true rfl, Bool.or_true]
  -- in either case the inode taken is below the inodes initialised
  have hok : ∀ inited, fs.fsInopb ∣ inited → inited ≤ fs.fsIpg → (fs.cg c).cgInitediblk ≤ inited → i < inited →
      CgOk fs.fsIpg fs.fsInopb { fs.cg c with
        cgIrotor := r
        cgInitediblk := inited
        cgInosused := setbit (fs.cg c).cgInosused i
        cgCs := (fs.cg c).cgCs.alloc dir } ((fs.fsCs c).alloc dir) := by
    intro inited hdvd hmax hmore hlt
    refine ⟨hcg.niblk, hdvd, hmax, fun j hj hjset => ?_, ?_, ?_, ?_, ?_⟩
    · rw [isset_setbit, Bool.or_eq_true, decide_eq_true_eq] at hjset
      obtain hjset | rfl := hjset
      · exact Nat.lt_of_lt_of_le (hcg.used j hj hjset) hmore
      · exact hlt
    · change r ≤ inited
      omega
    · change r < fs.fsIpg
      omega
    · change (fs.cg c).cgCs.csNifree - 1 = (clear (setbit (fs.cg c).cgInosused i) fs.fsIpg : Nat)
      omega
    · change (fs.fsCs c).csNifree - 1 = (fs.cg c).cgCs.csNifree - 1
      rw [hcg.cs]
  have hdown : ∀ cs : Csum, (cs.alloc dir).csNifree = cs.csNifree + -1 := fun cs => rfl
  rw [gotit, initBlock]
  dsimp only
  by_cases hinit : (fs.cg c).cgInitediblk < i + fs.fsInopb ∧ (fs.cg c).cgInitediblk < (fs.cg c).cgFfs2Niblk
  · rw [if_pos hinit]
    rw [hcg.niblk] at hinit
    have hmax := block_le hcg.whole h.blocks hinit.2
    have hinopb := h.inopb
    refine ⟨?_, ⟨rfl, rfl, rfl, .inr ⟨c, hc, hinit.2, ?_, ?_, fun e he => ?_⟩⟩, ?_, rfl⟩
    · have hdvd := (Nat.dvd_add_right hcg.whole).mpr (Nat.dvd_refl fs.fsInopb)
      exact h.setGroup hc (hok ((fs.cg c).cgInitediblk + fs.fsInopb) hdvd hmax (by omega) (by omega)) (hdown _)
        (hdown _) hzero
    · rw [inoToBlock, inoToCg, Nat.mul_comm c, Nat.mul_add_div h.ipg, Nat.mul_add_mod,
        Nat.div_eq_of_lt hinit.2, Nat.mod_eq_of_lt hinit.2, Nat.add_zero]
    · dsimp only
      rw [Function.update_self]
    · dsimp only
      rw [Function.update_of_ne he]
    · rw [Function.update_self]
      exact hset
  · rw [if_neg hinit]
    rw [hcg.niblk] at hinit
    have hbelow : i < (fs.cg c).cgInitediblk := by
      have hinopb := h.inopb
      omega
    refine ⟨?_, ⟨rfl, rfl, rfl, .inl ⟨rfl, fun e => ?_⟩⟩, ?_, rfl⟩
    · exact h.setGroup hc (hok _ hcg.whole hcg.inited le_rfl hbelow) (hdown _) (hdown _) hzero
    · dsimp only
      by_cases he : e = c
      · rw [he, Function.update_self]
      · rw [Function.update_of_ne he]
    · rw [Function.update_self]
      exact hset

theorem gotit_map (fs : Fs) (c i : Nat) (cgp : Cg) (dir : Bool) :
    ((gotit fs c i cgp dir).1.cg c).cgInosused = setbit cgp.cgInosused i
      ∧ (gotit fs c i cgp dir).1.fsIpg = fs.fsIpg ∧ (gotit fs c i cgp dir).2 = c * fs.fsIpg + i := by
  rw [gotit, initBlock]
  by_cases hinit : cgp.cgInitediblk < i + fs.fsInopb ∧ cgp.cgInitediblk < cgp.cgFfs2Niblk
  · rw [if_pos hinit]
    dsimp only
    rw [Function.update_self]
    exact ⟨rfl, rfl, rfl⟩
  · rw [if_neg hinit]
    dsimp only
    rw [Function.update_self]
    exact ⟨rfl, rfl, rfl⟩

/-- `ffs_nodealloccg` does nothing, or takes a free inode: the one preferred, or one that is at
most one past those that are initialised. -/
theorem nodealloccg_cases (h : FsOk fs) (hc : c < fs.fsNcg) (pref : Nat) (dir readOk : Bool) :
    (ffsNodealloccg fs c pref dir readOk = some (fs, 0) ∧ ((fs.fsCs c).csNifree = 0 ∨ readOk = false))
    ∨ ∃ i < fs.fsIpg, ∃ r, isclr (fs.cg c).cgInosused i = true ∧ (r = i ∨ r = (fs.cg c).cgIrotor)
      ∧ (pref ≠ 0 ∧ i = pref % fs.fsIpg ∨ i ≤ (fs.cg c).cgInitediblk)
      ∧ ffsNodealloccg fs c pref dir readOk = some (gotit fs c i { fs.cg c with cgIrotor := r } dir) := by
  have hcg := h.groups c hc
  rw [ffsNodealloccg]
  by_cases hnone : (fs.fsCs c).csNifree = 0
  · exact .inl ⟨if_pos hnone, .inl hnone⟩
  · rw [if_neg hnone]
    rw [hcg.cs] at hnone
    cases readOk with
    | false => exact .inl ⟨rfl, .inr rfl⟩
    | true =>
      rw [if_neg hnone]
      refine .inr ?_
      by_cases hfree : pref ≠ 0 ∧ isclr (fs.cg c).cgInosused (pref % fs.fsIpg) = true
      · rw [if_pos hfree]
        exact ⟨pref % fs.fsIpg, Nat.mod_lt _ h.ipg, (fs.cg c).cgIrotor, hfree.2, .inr rfl, .inl ⟨hfree.1, rfl⟩, rfl⟩
      · rw [if_neg hfree]
        obtain ⟨i, hfind, hi, hclr, hle⟩ := findInode_spec h.bytes hcg hnone
        refine ⟨i, hi, i, hclr, .inl rfl, .inr hle, ?_⟩
        rw [hfind]
        rfl

/-- A preference that cannot lead past the inodes that are initialised: none, the first inode of a
group, or an inode that is in use. -/
def PrefOk (fs : Fs) (c pref : Nat) : Prop :=
  pref = 0 ∨ pref % fs.fsIpg = 0 ∨ isset (fs.cg c).cgInosused (pref % fs.fsIpg) = true

theorem number_lt (hc : c < fs.fsNcg) (hi : i < fs.fsIpg) : c * fs.fsIpg + i < fs.fsNcg * fs.fsIpg := by
  calc c * fs.fsIpg + i < c * fs.fsIpg + fs.fsIpg := Nat.add_lt_add_left hi _
    _ = (c + 1) * fs.fsIpg := (Nat.succ_mul c fs.fsIpg).symm
    _ ≤ fs.fsNcg * fs.fsIpg := Nat.mul_le_mul_right _ hc

theorem number_inUse (hi : i < fs.fsIpg) : inUse fs (c * fs.fsIpg + i) = isset (fs.cg c).cgInosused i := by
  have hpos : 0 < fs.fsIpg := Nat.zero_lt_of_lt hi
  rw [inUse, inoToCg, Nat.mul_comm c, Nat.mul_add_div hpos, Nat.mul_add_mod, Nat.div_eq_of_lt hi, Nat.mod_eq_of_lt hi,
    Nat.add_zero]

/-- The number 0 is not that of a free inode. -/
theorem number_ne_zero (h : FsOk fs) (hclr : isclr (fs.cg c).cgInosused i = true) : c * fs.fsIpg + i ≠ 0 := by
  intro h0
  obtain ⟨hc0, rfl⟩ := Nat.add_eq_zero_iff.mp h0
  have hipg := h.ipg
  obtain rfl : c = 0 := (Nat.mul_eq_zero.mp hc0).resolve_right (by omega)
  rw [isclr, h.reserved] at hclr
  cases hclr

theorem nodealloccg_spec (h : FsOk fs) (hc : c < fs.fsNcg) {pref : Nat} (hpref : PrefOk fs c pref)
    (dir readOk : Bool) :
    ∃ fs' ino, ffsNodealloccg fs c pref dir readOk = some (fs', ino) ∧ FsOk fs' ∧ Grown fs fs'
      ∧ (ino = 0 ∧ fs' = fs ∨ ino ≠ 0 ∧ ino < fs'.fsNcg * fs'.fsIpg ∧ inUse fs' ino = true) := by
  obtain ⟨hres, -⟩ | ⟨i, hi, r, hclr, hr, hle, hres⟩ := nodealloccg_cases h hc pref dir readOk
  · exact ⟨fs, 0, hres, h, .refl fs, .inl ⟨rfl, rfl⟩⟩
  · have hle : i ≤ (fs.cg c).cgInitediblk := by
      obtain ⟨hne, rfl⟩ | hle := hle
      · obtain hzero | hzero | hset := hpref
        · exact absurd hzero hne
        · omega
        · rw [isclr, hset] at hclr
          cases hclr
      · exact hle
    obtain ⟨hok, hgrown, hset, hnum⟩ := gotit_spec h hc hi hclr hle hr dir
    generalize gotit fs c i { fs.cg c with cgIrotor := r } dir = res at hok hgrown hset hnum hres
    obtain ⟨fs', ino⟩ := res
    obtain rfl : ino = c * fs.fsIpg + i := hnum
    have hipg : fs'.fsIpg = fs.fsIpg := hgrown.ipg
    refine ⟨fs', _, hres, hok, hgrown, .inr ⟨number_ne_zero h hclr, ?_, ?_⟩⟩
    · rw [hgrown.ncg, hipg]
      exact number_lt hc hi
    · rw [← hipg, number_inUse (hipg.symm ▸ hi)]
      exact hset

/-! ## In the file system -/

/-- What one allocation, or a part of one, comes to. -/
def Allocated (fs : Fs) (res : Option (Fs × Nat)) : Prop :=
  ∃ fs' ino, res = some (fs', ino) ∧ FsOk fs' ∧ Grown fs fs'
    ∧ (ino = 0 ∧ fs' = fs ∨ ino ≠ 0 ∧ ino < fs'.fsNcg * fs'.fsIpg ∧ inUse fs' ino = true)

/-- Try a group, and go on if it has no inode. -/
theorem Allocated.orElse {res : Option (Fs × Nat)} (next : Fs → Option (Fs × Nat)) (h : Allocated fs res)
    (hnext : Allocated fs (next fs)) :
    Allocated fs (res.bind fun (fs, result) => if result ≠ 0 then some (fs, result) else next fs) := by
  obtain ⟨fs', ino, rfl, hok, hgrown, hcase⟩ := h
  obtain ⟨rfl, rfl⟩ | ⟨hne, hlt, hset⟩ := hcase
  · exact hnext
  · refine ⟨fs', ino, if_pos hne, hok, hgrown, .inr ⟨hne, hlt, hset⟩⟩

theorem Allocated.none (h : FsOk fs) : Allocated fs (some (fs, 0)) :=
  ⟨fs, 0, rfl, h, .refl fs, .inl ⟨rfl, rfl⟩⟩

theorem rehash_spec (h : FsOk fs) (dir : Bool) (readOk : Try → Bool) (rounds : Nat) : ∀ {i c : Nat}, c < fs.fsNcg →
    Allocated fs (rehash dir readOk rounds i c fs) := by
  induction rounds with
  | zero =>
    intro i c _
    exact .none h
  | succ rounds ih =>
    intro i c hc
    rw [rehash]
    split
    · rename_i hi
      have hc' : (if fs.fsNcg ≤ c + i then c + i - fs.fsNcg else c + i) < fs.fsNcg := by
        split
        · omega
        · omega
      exact Allocated.orElse _ (nodealloccg_spec h hc' (.inl rfl) dir _) (ih hc')
    · exact .none h

theorem brute_spec (h : FsOk fs) (dir : Bool) (readOk : Try → Bool) (n : Nat) : ∀ {i c : Nat}, c < fs.fsNcg →
    Allocated fs (brute dir readOk n i c fs) := by
  induction n with
  | zero =>
    intro i c _
    exact .none h
  | succ n ih =>
    intro i c hc
    have hc' : (if c + 1 = fs.fsNcg then 0 else c + 1) < fs.fsNcg := by
      split
      · exact h.ncg
      · omega
    exact Allocated.orElse (fun fs => brute dir readOk n (i + 1) (if c + 1 = fs.fsNcg then 0 else c + 1) fs)
      (nodealloccg_spec h hc (.inl rfl) dir _) (ih hc')

theorem hashalloc_spec (h : FsOk fs) (hc : c < fs.fsNcg) {pref : Nat} (hpref : PrefOk fs c pref) (dir : Bool)
    (readOk : Try → Bool) : Allocated fs (ffsHashalloc fs c pref dir readOk) := by
  refine Allocated.orElse
    (fun fs => (rehash dir readOk fs.fsNcg 1 c fs).bind fun (fs, result) =>
      if result ≠ 0 then some (fs, result) else brute dir readOk (fs.fsNcg - 2) 2 ((c + 2) % fs.fsNcg) fs)
    (nodealloccg_spec h hc hpref dir _) ?_
  exact Allocated.orElse (fun fs => brute dir readOk (fs.fsNcg - 2) 2 ((c + 2) % fs.fsNcg) fs)
    (rehash_spec h dir readOk _ hc) (brute_spec h dir readOk _ (Nat.mod_lt _ h.ncg))

/-- No block of inodes has been initialised. -/
structure Kept (fs fs' : Fs) : Prop where
  ncg : fs'.fsNcg = fs.fsNcg
  ipg : fs'.fsIpg = fs.fsIpg
  inopb : fs'.fsInopb = fs.fsInopb
  zeroed : fs'.zeroed = fs.zeroed
  inited : ∀ c, (fs'.cg c).cgInitediblk = (fs.cg c).cgInitediblk

theorem Kept.grown (h : Kept fs fs') : Grown fs fs' := ⟨h.ncg, h.ipg, h.inopb, .inl ⟨h.zeroed, h.inited⟩⟩

theorem Grown.kept {fs'' : Fs} (h : Grown fs fs') (h' : Kept fs' fs'') : Grown fs fs'' := by
  refine ⟨h'.ncg.trans h.ncg, h'.ipg.trans h.ipg, h'.inopb.trans h.inopb, ?_⟩
  obtain ⟨hz, hi⟩ | ⟨c, hc, hlt, hz, hi, hother⟩ := h.blocks
  · exact .inl ⟨h'.zeroed.trans hz, fun c => (h'.inited c).trans (hi c)⟩
  · exact .inr ⟨c, hc, hlt, h'.zeroed.trans hz, (h'.inited c).trans hi, fun e he => (h'.inited e).trans (hother e he)⟩

theorem freefile_spec {ino : Nat} (h : FsOk fs) (hlt : ino < fs.fsNcg * fs.fsIpg) (hne : ino ≠ 0)
    (hused : inUse fs ino = true) (dir readOk : Bool) :
    ∃ fs', ffsFreefile fs ino dir readOk = some fs' ∧ FsOk fs' ∧ Kept fs fs' := by
  rw [ffsFreefile, if_neg (Nat.not_le.mpr (Nat.mul_comm fs.fsNcg _ ▸ hlt))]
  cases readOk with
  | false => exact ⟨fs, rfl, h, rfl, rfl, rfl, rfl, fun _ => rfl⟩
  | true =>
    dsimp only
    rw [inUse] at hused
    rw [isclr, hused, if_neg (by decide)]
    have hc : inoToCg fs ino < fs.fsNcg := Nat.div_lt_of_lt_mul (Nat.mul_comm fs.fsNcg _ ▸ hlt)
    have hi : ino % fs.fsIpg < fs.fsIpg := Nat.mod_lt _ h.ipg
    have hcg := h.groups _ hc
    have hcount := clear_clrbit hi hused
    refine ⟨_, rfl, h.setGroup hc (d := 1) ?_ rfl rfl fun h0 => ?_, rfl, rfl, rfl, rfl, fun e => ?_⟩
    · refine ⟨hcg.niblk, hcg.whole, hcg.inited, fun j hj hjset => ?_, ?_, ?_, ?_, ?_⟩
      · rw [isset_clrbit, Bool.and_eq_true] at hjset
        exact hcg.used j hj hjset.1
      · have hrotor := hcg.rotor
        dsimp only
        split
        · omega
        · exact hrotor
      · have hrotor := hcg.rotorLt
        split
        · exact hi
        · exact hrotor
      · have hfree := hcg.free
        change (fs.cg (inoToCg fs ino)).cgCs.csNifree + 1 = (clear (clrbit _ _) fs.fsIpg : Nat)
        omega
      · change (fs.fsCs _).csNifree + 1 = (fs.cg _).cgCs.csNifree + 1
        rw [hcg.cs]
    · -- in the first group it is not the inode 0
      have hmod : ino % fs.fsIpg ≠ 0 := by
        intro hz
        have hdiv := Nat.div_add_mod ino fs.fsIpg
        rw [show ino / fs.fsIpg = 0 from h0, hz] at hdiv
        omega
      rw [h0, isset_clrbit, h.reserved, decide_eq_false (Ne.symm hmod)]
      rfl
    · dsimp only
      by_cases he : e = inoToCg fs ino
      · rw [he, Function.update_self]
      · rw [Function.update_of_ne he]

theorem preference_cases (fs : Fs) (parent dirpref : Nat) (dir : Bool) :
    preference fs parent dirpref dir = 0
    ∨ preference fs parent dirpref dir = (if dir then fs.fsIpg * dirpref else parent)
      ∧ preference fs parent dirpref dir < fs.fsNcg * fs.fsIpg := by
  rw [preference]
  generalize (if dir = true then fs.fsIpg * dirpref else parent) = ipref
  split
  · exact .inl rfl
  · rename_i hlt
    exact .inr ⟨rfl, Nat.not_le.mp hlt⟩

theorem preference_lt (h : FsOk fs) (parent dirpref : Nat) (dir : Bool) :
    inoToCg fs (preference fs parent dirpref dir) < fs.fsNcg := by
  obtain hz | ⟨-, hlt⟩ := preference_cases fs parent dirpref dir
  · rw [hz, inoToCg, Nat.zero_div]
    exact h.ncg
  · exact Nat.div_lt_of_lt_mul (Nat.mul_comm fs.fsNcg _ ▸ hlt)

theorem preference_ok {parent : Nat} (dirpref : Nat) (dir : Bool) (hparent : inUse fs parent = true) :
    PrefOk fs (inoToCg fs (preference fs parent dirpref dir)) (preference fs parent dirpref dir) := by
  obtain hz | ⟨heq, -⟩ := preference_cases fs parent dirpref dir
  · exact .inl hz
  · rw [heq]
    cases dir with
    | true => exact .inr (.inl (Nat.mul_mod_right _ _))
    | false => exact .inr (.inr hparent)

theorem inodeAlloc_spec {parent : Nat} (h : FsOk fs) (hparent : inUse fs parent = true) (dirpref : Nat) (dir : Bool)
    (readOk : Try → Bool) (vgetOk freeReadOk : Bool) :
    ∃ fs' ino, ffsInodeAlloc fs parent dirpref dir readOk vgetOk freeReadOk = some (fs', ino) ∧ FsOk fs'
      ∧ Grown fs fs' := by
  rw [ffsInodeAlloc]
  split
  · exact ⟨fs, 0, rfl, h, .refl fs⟩
  · dsimp only
    have hc := preference_lt h parent dirpref dir
    have hpref := preference_ok dirpref dir hparent
    generalize preference fs parent dirpref dir = pref at hc hpref
    have hnote : FsOk (noteContigdirs fs (inoToCg fs pref) dir) :=
      ⟨h.ncg, h.inopb, h.ipg, h.blocks, h.bytes, h.groups, h.total, h.reserved⟩
    obtain ⟨fs', ino, hres, hok, hgrown, hcase⟩ := hashalloc_spec hnote hc hpref dir readOk
    have hgrown : Grown fs fs' := ⟨hgrown.ncg, hgrown.ipg, hgrown.inopb, hgrown.blocks⟩
    rw [hres, Option.bind_some]
    by_cases h0 : ino = 0
    · rw [if_pos h0]
      exact ⟨fs', 0, rfl, hok, hgrown⟩
    · rw [if_neg h0]
      obtain ⟨hz, -⟩ | ⟨-, hlt, hused⟩ := hcase
      · exact absurd hz h0
      · cases vgetOk with
        | true => exact ⟨fs', ino, rfl, hok, hgrown⟩
        | false =>
          obtain ⟨fs'', hfree, hok', hkept⟩ := freefile_spec hok hlt h0 hused dir freeReadOk
          refine ⟨fs'', 0, ?_, hok', hgrown.kept hkept⟩
          rw [if_neg (by decide), hfree]
          rfl

/-! ## Runs -/

inductive Op where
  | alloc (parent dirpref : Nat) (dir : Bool) (readOk : Try → Bool) (vgetOk freeReadOk : Bool)
  | free (ino : Nat) (dir readOk : Bool)

/-- `none` is a panic. -/
def step (fs : Fs) : Op → Option Fs
  | .alloc parent dirpref dir readOk vgetOk freeReadOk =>
    (ffsInodeAlloc fs parent dirpref dir readOk vgetOk freeReadOk).map Prod.fst
  | .free ino dir readOk => ffsFreefile fs ino dir readOk

/-- The parent of a new file is in use, and so is a file that is freed. -/
def allowed (fs : Fs) : Op → Bool
  | .alloc parent .. => inUse fs parent
  | .free ino .. => decide (ino ≠ 0) && decide (ino < fs.fsNcg * fs.fsIpg) && inUse fs ino

theorem step_spec {op : Op} (h : FsOk fs) (hallowed : allowed fs op = true) :
    ∃ fs', step fs op = some fs' ∧ FsOk fs' ∧ Grown fs fs' := by
  cases op with
  | alloc parent dirpref dir readOk vgetOk freeReadOk =>
    obtain ⟨fs', ino, hres, hok, hgrown⟩ := inodeAlloc_spec h hallowed dirpref dir readOk vgetOk freeReadOk
    refine ⟨fs', ?_, hok, hgrown⟩
    rw [step, hres]
    rfl
  | free ino dir readOk =>
    rw [allowed, Bool.and_eq_true, Bool.and_eq_true, decide_eq_true_eq, decide_eq_true_eq] at hallowed
    obtain ⟨⟨hne, hlt⟩, hused⟩ := hallowed
    obtain ⟨fs', hres, hok, hkept⟩ := freefile_spec h hlt hne hused dir readOk
    exact ⟨fs', hres, hok, hkept.grown⟩

/-- Each block that was initialised since `fs₀` is on the list once, and no other. -/
structure LogOk (fs₀ fs : Fs) : Prop where
  ncg : fs.fsNcg = fs₀.fsNcg
  inopb : fs.fsInopb = fs₀.fsInopb
  mono : ∀ c, (fs₀.cg c).cgInitediblk ≤ (fs.cg c).cgInitediblk
  once : ∀ c < fs₀.fsNcg, ∀ b, fs.zeroed.count (c, b)
    = if (fs₀.cg c).cgInitediblk ≤ b * fs₀.fsInopb ∧ b * fs₀.fsInopb < (fs.cg c).cgInitediblk then 1 else 0

theorem LogOk.grown {fs₀ : Fs} (h : LogOk fs₀ fs) (hok : FsOk fs) (hgrown : Grown fs fs') : LogOk fs₀ fs' := by
  obtain ⟨hz, hi⟩ | ⟨c, hc, -, hz, hi, hother⟩ := hgrown.blocks
  · refine ⟨hgrown.ncg.trans h.ncg, hgrown.inopb.trans h.inopb, fun c => ?_, fun c hc b => ?_⟩
    · rw [hi]
      exact h.mono c
    · rw [hz, hi]
      exact h.once c hc b
  · have hinopb := h.inopb
    have hpos := hok.inopb
    have hwhole := (hok.groups c hc).whole
    have hmul : (fs.cg c).cgInitediblk / fs.fsInopb * fs₀.fsInopb = (fs.cg c).cgInitediblk := by
      rw [← hinopb, Nat.div_mul_cancel hwhole]
    refine ⟨hgrown.ncg.trans h.ncg, hgrown.inopb.trans h.inopb, fun e => ?_, fun e he b => ?_⟩
    · have hmono := h.mono e
      by_cases hec : e = c
      · rw [hec, hi]
        have hmono := h.mono c
        omega
      · rw [hother e hec]
        exact hmono
    · rw [hz, List.count_append, h.once e he b, List.count_singleton]
      by_cases hec : e = c
      · subst hec
        rw [hi]
        have hmono := h.mono e
        by_cases hb : b = (fs.cg e).cgInitediblk / fs.fsInopb
        · rw [hb, beq_self_eq_true, if_pos rfl, hmul, if_neg (by omega), if_pos (by omega)]
        · -- another block, which is before this one or after it
          have hne : ((e, (fs.cg e).cgInitediblk / fs.fsInopb) == (e, b)) = false := by
            refine beq_false_of_ne fun heq => hb (Prod.mk.inj heq).2.symm
          rw [hne, if_neg Bool.false_ne_true, Nat.add_zero]
          have hiff : b * fs₀.fsInopb < (fs.cg e).cgInitediblk + fs.fsInopb ↔ b * fs₀.fsInopb < (fs.cg e).cgInitediblk := by
            constructor
            · intro hlt
              rw [← hmul, ← hinopb] at hlt ⊢
              rw [← Nat.succ_mul] at hlt
              have hle := Nat.lt_of_mul_lt_mul_right hlt
              exact Nat.mul_lt_mul_of_pos_right (by omega) hpos
            · intro hlt
              omega
          by_cases hin : (fs₀.cg e).cgInitediblk ≤ b * fs₀.fsInopb ∧ b * fs₀.fsInopb < (fs.cg e).cgInitediblk
          · rw [if_pos hin, if_pos ⟨hin.1, hiff.mpr hin.2⟩]
          · rw [if_neg hin, if_neg fun h' => hin ⟨h'.1, hiff.mp h'.2⟩]
      · have hne : ((c, (fs.cg c).cgInitediblk / fs.fsInopb) == (e, b)) = false :=
          beq_false_of_ne fun heq => hec (Prod.mk.inj heq).1.symm
        rw [hne, if_neg Bool.false_ne_true, Nat.add_zero, hother e hec]

/-- What a step initialises was not in use. -/
theorem Grown.unused (h : Grown fs fs') (hok : FsOk fs) {b : Nat} (hnew : fs.zeroed.count (c, b) < fs'.zeroed.count (c, b))
    (hlo : b * fs.fsInopb ≤ i) (hhi : i < (b + 1) * fs.fsInopb) : isset (fs.cg c).cgInosused i = false := by
  obtain ⟨hz, -⟩ | ⟨e, he, hlt, hz, -, -⟩ := h.blocks
  · rw [hz] at hnew
    omega
  · rw [hz, List.count_append, List.count_singleton] at hnew
    have heq : (e, (fs.cg e).cgInitediblk / fs.fsInopb) = (c, b) := by
      by_contra hne
      rw [beq_false_of_ne hne, if_neg Bool.false_ne_true] at hnew
      omega
    obtain ⟨rfl, rfl⟩ := Prod.mk.inj heq
    have hcg := hok.groups e he
    have hend := block_le hcg.whole hok.blocks hlt
    rw [Nat.div_mul_cancel hcg.whole] at hlo
    rw [Nat.succ_mul, Nat.div_mul_cancel hcg.whole] at hhi
    by_contra hset
    have hused := hcg.used i (by omega) (Bool.not_eq_false _ ▸ hset)
    omega

/-- `ffs_nodealloccg` finds a free inode when there is one, whatever the preference. -/
theorem nodealloccg_finds (h : FsOk fs) (hc : c < fs.fsNcg) (hpos : 0 < (fs.cg c).cgCs.csNifree) (pref : Nat)
    (dir : Bool) :
    ∃ fs' ino, ffsNodealloccg fs c pref dir true = some (fs', ino) ∧ ino ≠ 0 ∧ inoToCg fs ino = c
      ∧ inUse fs ino = false ∧ inUse fs' ino = true := by
  have hcs := (h.groups c hc).cs
  obtain ⟨-, hnone | hfalse⟩ | ⟨i, hi, r, hclr, -, -, hres⟩ := nodealloccg_cases h hc pref dir true
  · omega
  · cases hfalse
  · obtain ⟨hmap, hipg, hnum⟩ := gotit_map fs c i { fs.cg c with cgIrotor := r } dir
    generalize gotit fs c i { fs.cg c with cgIrotor := r } dir = res at hmap hipg hnum hres
    obtain ⟨fs', ino⟩ := res
    obtain rfl : ino = c * fs.fsIpg + i := hnum
    have hipg : fs'.fsIpg = fs.fsIpg := hipg
    refine ⟨fs', _, hres, number_ne_zero h hclr, ?_, ?_, ?_⟩
    · rw [inoToCg, Nat.mul_comm c, Nat.mul_add_div h.ipg, Nat.div_eq_of_lt hi, Nat.add_zero]
    · rw [number_inUse hi]
      rw [isclr, Bool.not_eq_true'] at hclr
      exact hclr
    · rw [← hipg, number_inUse (hipg.symm ▸ hi), hmap, isset_setbit, decide_eq_true rfl, Bool.or_true]

/-- In every state of a run the counts of free inodes are right, every inode in use has been
initialised, each block of inodes that is initialised was so once, and not while one of its
inodes was in use, and a free inode is found when there is one. -/
theorem inodes_consistent {fs₀ : Fs} (h₀ : FsOk fs₀) (hlog : fs₀.zeroed = [])
    (hrun : Runs step (fun fs op => allowed fs op = true) fs₀ fs) :
    (∀ c < fs.fsNcg,
      (fs.cg c).cgCs.csNifree = clear (fs.cg c).cgInosused fs.fsIpg
        ∧ (fs.fsCs c).csNifree = clear (fs.cg c).cgInosused fs.fsIpg
        ∧ (∀ i < fs.fsIpg, isset (fs.cg c).cgInosused i = true → i < (fs.cg c).cgInitediblk)
        ∧ (∀ b, fs.zeroed.count (c, b) = if (fs₀.cg c).cgInitediblk ≤ b * fs.fsInopb
            ∧ b * fs.fsInopb < (fs.cg c).cgInitediblk then 1 else 0)
        ∧ ∀ pref dir, 0 < (fs.cg c).cgCs.csNifree →
          ∃ fs' ino, ffsNodealloccg fs c pref dir true = some (fs', ino) ∧ ino ≠ 0 ∧ inoToCg fs ino = c
            ∧ inUse fs ino = false ∧ inUse fs' ino = true)
      ∧ fs.fsCstotal.csNifree = ∑ c ∈ Finset.range fs.fsNcg, (fs.fsCs c).csNifree
      ∧ ∀ op, allowed fs op = true → ∃ fs', step fs op = some fs'
        ∧ ∀ c b, fs.zeroed.count (c, b) < fs'.zeroed.count (c, b) →
          ∀ i, b * fs.fsInopb ≤ i → i < (b + 1) * fs.fsInopb → isset (fs.cg c).cgInosused i = false := by
  have hstep : ∀ fs op fs', allowed fs op = true → step fs op = some fs' → FsOk fs ∧ LogOk fs₀ fs →
      FsOk fs' ∧ LogOk fs₀ fs' := by
    intro fs op fs' hop hfs' h
    obtain ⟨fs₁, hfs₁, hok₁, hgrown⟩ := step_spec h.1 hop
    obtain rfl := Option.some.inj (hfs₁.symm.trans hfs')
    exact ⟨hok₁, h.2.grown h.1 hgrown⟩
  have hlog₀ : LogOk fs₀ fs₀ := by
    refine ⟨rfl, rfl, fun _ => Nat.le_refl _, fun c _ b => ?_⟩
    rw [hlog, if_neg (by omega)]
    rfl
  obtain ⟨hok, hl⟩ := Runs.invariant hstep hrun ⟨h₀, hlog₀⟩
  refine ⟨fun c hc => ?_, hok.total, fun op hop => ?_⟩
  · have hcg := hok.groups c hc
    refine ⟨hcg.free, hcg.cs.trans hcg.free, hcg.used, fun b => ?_, fun pref dir hpos => ?_⟩
    · rw [hl.once c (hl.ncg ▸ hc) b, hl.inopb]
    · exact nodealloccg_finds hok hc hpos pref dir
  · obtain ⟨fs', hfs', -, hgrown⟩ := step_spec hok hop
    exact ⟨fs', hfs', fun c b hnew i hlo hhi => hgrown.unused hok hnew hlo hhi⟩

/-- A file system of one group of 16 inodes in two blocks, with the first three in use. -/
def small : Fs where
  fsNcg := 1
  fsIpg := 16
  fsInopb := 8
  fsCs _ := ⟨1, 13⟩
  fsCstotal := ⟨1, 13⟩
  fsContigdirs _ := 0
  cg _ := { cgCs := ⟨1, 13⟩, cgIrotor := 0, cgInosused := fun n => if n = 0 then 7#8 else 0#8, cgFfs2Niblk := 16,
            cgInitediblk := 8 }
  zeroed := []

theorem small_ok : FsOk small := by
  refine ⟨by decide, by decide, by decide, by decide, by decide, fun c hc => ?_, rfl, rfl⟩
  obtain rfl : c = 0 := Nat.lt_one_iff.mp hc
  exact ⟨rfl, by decide, by decide, by decide, by decide, by decide, rfl, rfl⟩

/-- The first file that is made in the root directory is inode 3, and initialises the second
block. -/
theorem inodes_consistent_small : ∃ fs, step small (.alloc 2 0 false (fun _ => true) true true) = some fs
    ∧ inUse fs 3 = true ∧ fs.zeroed = [(0, 1)]
    ∧ (fs.cg 0).cgCs.csNifree = clear (fs.cg 0).cgInosused fs.fsIpg := by
  obtain ⟨fs, hfs⟩ : ∃ fs, step small (.alloc 2 0 false (fun _ => true) true true) = some fs := ⟨_, rfl⟩
  have hfacts : inUse fs 3 = true ∧ fs.zeroed = [(0, 1)] ∧ fs.fsNcg = 1 := by
    obtain rfl := Option.some.inj hfs
    exact ⟨rfl, rfl, rfl⟩
  obtain ⟨hused, hzeroed, hncg⟩ := hfacts
  have hrun : Runs step (fun fs op => allowed fs op = true) small fs := .single ⟨_, rfl, hfs⟩
  exact ⟨fs, hfs, hused, hzeroed, ((inodes_consistent small_ok rfl hrun).1 0 (hncg ▸ Nat.one_pos)).1⟩

end Obsd.Ffs
