import Obsd.FfsBlkmap

/-!
# Allocating fragments

A group has room for `n` fragments if so many adjacent ones are free in one
block. The summaries say whether it has: a free block is counted in
`cs_nbfree`, and if there is none then the longest run of free fragments
around these is counted in `cg_frsum`. `ffs_alloccg` then takes `n` of them,
and `ffs_hashalloc` gets to every group: the first by itself, the next one
in the rehash, and all the others in the brute force search.
-/

namespace Obsd.FfsBlk

open Bytes

variable {fs fs' : Fs} {cgp : Cg} {a : Bytes} {c f i h m n p : Nat}

/-! ## Consistent file systems -/

/-- What the allocation rests on in a cylinder group and its summary in the superblock. -/
structure CgOk (fs : Fs) (c : Nat) : Prop where
  read : fs.cgread c = true
  cgx : (fs.cg c).cgCgx = c
  rotor : (fs.cg c).cgRotor < fs.fsFpg
  frotor : (fs.cg c).cgFrotor < fs.fsFpg
  /-- There are no free fragments after the last. -/
  beyond : ∀ i, fs.fsFpg ≤ i → i < howmany fs.fsFpg 8 * 8 → isset (fs.cg c).cgBlksfree i = false
  nbfree : (fs.cg c).cgCs.csNbfree
    = Nat.count (fun h => ffsIsblock fs (fs.cg c).cgBlksfree h = true) (fs.fsFpg / fs.fsFrag)
  frsum : ∀ n, 1 ≤ n → n < fs.fsFrag → (fs.cg c).cgFrsum n
    = Nat.count (fun p => isRun fs.fsFrag (fs.cg c).cgBlksfree n p = true) fs.fsFpg
  cs : fs.fsCs c = (fs.cg c).cgCs
  nclusterblks : (fs.cg c).cgNclusterblks ≤ fs.fsFpg / fs.fsFrag
  clusters : fs.fsContigsumsize ≠ 0 → ∀ h < (fs.cg c).cgNclusterblks,
    isset (fs.cg c).cgClustersfree h = ffsIsblock fs (fs.cg c).cgBlksfree h

structure FsOk (fs : Fs) : Prop extends Geom fs where
  bsize : fs.fsBsize = fs.fsFrag <<< fs.fsFshift
  groups : ∀ c < fs.fsNcg, CgOk fs c
  /-- The fragment with the address 0 is not free. -/
  reserved : isset (fs.cg 0).cgBlksfree 0 = false

/-- The `n` fragments from `p` on are in one block, and free. -/
def Adjacent (frag : Nat) (a : Bytes) (p n : Nat) : Prop :=
  p % frag + n ≤ frag ∧ ∀ i, p ≤ i → i < p + n → isset a i = true

def HasRoom (fs : Fs) (c n : Nat) : Prop :=
  ∃ p, p + n ≤ fs.fsFpg ∧ Adjacent fs.fsFrag (fs.cg c).cgBlksfree p n

/-- The `n` fragments from `p` on in the group `c` were free in one block, and they are what is not
free any more. -/
structure Taken (fs fs' : Fs) (c p n : Nat) : Prop where
  inside : p + n ≤ fs.fsFpg
  free : Adjacent fs.fsFrag (fs.cg c).cgBlksfree p n
  map : ∀ e i, isset (fs'.cg e).cgBlksfree i
    = (isset (fs.cg e).cgBlksfree i && !decide (e = c ∧ p ≤ i ∧ i < p + n))

/-! ## Runs and blocks -/

theorem isRun_iff : isRun f a n p = true ↔ Adjacent f a p n
    ∧ (p % f = 0 ∨ isset a (p - 1) = false) ∧ (p % f + n = f ∨ isset a (p + n) = false) := by
  unfold isRun Adjacent
  simp only [Bool.and_eq_true, decide_eq_true_eq, List.all_eq_true, List.mem_range, Bool.or_eq_true, beq_iff_eq,
    Bool.not_eq_true', and_assoc]
  refine and_congr_right fun _ => and_congr_left fun _ => ⟨fun hall i hi hlt => ?_, fun hall j hj => ?_⟩
  · have hbit := hall (i - p) (by omega)
    rwa [Nat.add_sub_cancel' hi] at hbit
  · exact hall (p + j) (Nat.le_add_right ..) (Nat.add_lt_add_left hj p)

theorem Adjacent.mono (had : Adjacent f a p m) (hle : n ≤ m) : Adjacent f a p n :=
  ⟨Nat.le_trans (Nat.add_le_add_left hle _) had.1, fun i hi hlt => had.2 i hi (by omega)⟩

/-- Free fragments are part of a run: it is made longer at either end until that is not possible
any more. -/
theorem exists_isRun (hf : 0 < f) : ∀ k n p, f = n + k → 1 ≤ n → Adjacent f a p n →
    ∃ m p', n ≤ m ∧ m ≤ f ∧ p' ≤ p ∧ isRun f a m p' = true := by
  intro k
  induction k with
  | zero =>
    intro n p hk hn had
    have hstart : p % f = 0 := by
      have h := had.1
      omega
    exact ⟨n, p, Nat.le_refl n, Nat.le_of_eq hk.symm, Nat.le_refl p,
      isRun_iff.mpr ⟨had, .inl hstart, .inl (by omega)⟩⟩
  | succ k ih =>
    intro n p hk hn had
    by_cases hrun : isRun f a n p = true
    · exact ⟨n, p, Nat.le_refl n, by omega, Nat.le_refl p, hrun⟩
    · have hlonger : ∃ p' ≤ p, Adjacent f a p' (n + 1) := by
        rw [isRun_iff] at hrun
        by_cases hbefore : p % f = 0 ∨ isset a (p - 1) = false
        · -- the one after them is free
          have hafter := fun hx => hrun ⟨had, hbefore, hx⟩
          obtain ⟨hend, hset⟩ := not_or.mp hafter
          have hlt := had.1
          refine ⟨p, Nat.le_refl p, by omega, fun i hi hi' => ?_⟩
          by_cases hlast : i = p + n
          · rw [hlast]
            exact eq_true_of_ne_false hset
          · exact had.2 i hi (by omega)
        · -- the one before them is
          obtain ⟨hmid, hset⟩ := not_or.mp hbefore
          have hpos : 0 < p := Nat.pos_of_ne_zero fun h0 => hmid (by rw [h0, Nat.zero_mod])
          have hmod : (p - 1) % f + 1 = p % f := by
            have hdiv := Nat.div_add_mod p f
            have hlt := Nat.mod_lt p hf
            have hprev : p - 1 = f * (p / f) + (p % f - 1) := by omega
            rw [hprev, Nat.mul_add_mod, Nat.mod_eq_of_lt (by omega)]
            omega
          have hlt := had.1
          refine ⟨p - 1, Nat.sub_le .., by omega, fun i hi hi' => ?_⟩
          by_cases hfirst : i = p - 1
          · rw [hfirst]
            exact eq_true_of_ne_false hset
          · exact had.2 i (by omega) (by omega)
      obtain ⟨p', hp', had'⟩ := hlonger
      obtain ⟨m, p'', hm, hmf, hp'', hrun'⟩ := ih (n + 1) p' (by omega) (by omega) had'
      exact ⟨m, p'', by omega, hmf, by omega, hrun'⟩

theorem mem_block_iff (hf : 0 < f) : i / f = h ↔ h * f ≤ i ∧ i < h * f + f := by
  rw [Nat.div_eq_iff hf]
  omega

/-- A whole block. -/
theorem Geom.adjacent_block (hg : Geom fs) :
    Adjacent fs.fsFrag a (h * fs.fsFrag) fs.fsFrag ↔ ffsIsblock fs a h = true := by
  rw [isblock_iff hg, Adjacent, Nat.mul_mod_left, Nat.zero_add]
  refine (and_iff_right le_rfl).trans (forall_congr' fun i => ?_)
  rw [mem_block_iff hg.pos, and_imp]

theorem Geom.block_of_full (hg : Geom fs) (had : Adjacent fs.fsFrag a p fs.fsFrag) :
    p = p / fs.fsFrag * fs.fsFrag ∧ ffsIsblock fs a (p / fs.fsFrag) = true := by
  have hmod : p % fs.fsFrag = 0 := by
    have hle := had.1
    omega
  have hp : p = p / fs.fsFrag * fs.fsFrag := (Nat.div_mul_cancel (Nat.dvd_of_mod_eq_zero hmod)).symm
  refine ⟨hp, hg.adjacent_block.mp ?_⟩
  rwa [← hp]

/-- The end of a group is the end of a block. -/
theorem block_lt (hh : h < fs.fsFpg / fs.fsFrag) : h * fs.fsFrag + fs.fsFrag ≤ fs.fsFpg := by
  calc h * fs.fsFrag + fs.fsFrag = (h + 1) * fs.fsFrag := (Nat.succ_mul h _).symm
    _ ≤ fs.fsFpg / fs.fsFrag * fs.fsFrag := Nat.mul_le_mul_right _ hh
    _ ≤ fs.fsFpg := Nat.div_mul_le_self _ _

/-! ## A block -/

/-- Only the summaries in the superblock are others. -/
def Summed (fs fs' : Fs) : Prop :=
  ∃ cs total max, fs' = { fs with fsCs := cs, fsCstotal := total, fsMaxcluster := max }

theorem clusteracct_spec (fs : Fs) (cgp : Cg) (blkno : Nat) (cnt : Int) :
    Summed fs (ffsClusteracct fs cgp blkno cnt).1
      ∧ ∃ free sum, (ffsClusteracct fs cgp blkno cnt).2
        = { cgp with cgClustersfree := free, cgClustersum := sum } := by
  unfold ffsClusteracct
  split
  · exact ⟨⟨_, _, _, rfl⟩, _, _, rfl⟩
  · exact ⟨⟨_, _, _, rfl⟩, _, _, rfl⟩

/-- The block is taken out of the map. -/
theorem gotit_spec (fs : Fs) (cgp : Cg) (bno : Nat) : ∃ fs' cgp',
    gotit fs cgp bno = (fs', cgp', cgbase fs cgp.cgCgx + bno) ∧ Summed fs fs' ∧ cgp'.cgCgx = cgp.cgCgx
      ∧ cgp'.cgBlksfree = ffsClrblock fs cgp.cgBlksfree (fragstoblks fs bno) := by
  obtain ⟨hfs, free, sum, hcg⟩ := clusteracct_spec fs
    { cgp with cgBlksfree := ffsClrblock fs cgp.cgBlksfree (fragstoblks fs bno) } (fragstoblks fs bno) (-1)
  unfold gotit
  dsimp only
  generalize ffsClusteracct fs { cgp with
    cgBlksfree := ffsClrblock fs cgp.cgBlksfree (fragstoblks fs bno) } (fragstoblks fs bno) (-1) = r at hfs hcg ⊢
  obtain ⟨fs₁, cgp₁⟩ := r
  obtain ⟨cs, total, max, rfl⟩ := hfs
  subst hcg
  exact ⟨_, _, rfl, ⟨_, _, _, rfl⟩, rfl, rfl⟩

/-- The next block in the map, whatever the preference. -/
theorem nextBlock_spec (hg : Geom fs) (hfrotor : cgp.cgFrotor < fs.fsFpg)
    (hbeyond : ∀ i, fs.fsFpg ≤ i → i < howmany fs.fsFpg 8 * 8 → isset cgp.cgBlksfree i = false)
    (hfree : ∃ h < fs.fsFpg / fs.fsFrag, ffsIsblock fs cgp.cgBlksfree h = true) (bpref : Nat) :
    ∃ fs' cgp', ∃ h < fs.fsFpg / fs.fsFrag,
      nextBlock fs cgp bpref = .ok (fs', cgp', cgbase fs cgp.cgCgx + (h * fs.fsFrag : Nat))
      ∧ ffsIsblock fs cgp.cgBlksfree h = true ∧ Summed fs fs'
      ∧ cgp'.cgBlksfree = ffsClrblock fs cgp.cgBlksfree h := by
  have hpos := hg.pos
  have hmap : fs.fsFpg ≤ howmany fs.fsFpg 8 * 8 := by
    unfold howmany
    omega
  obtain ⟨h₀, hh₀, hblk₀⟩ := hfree
  have hend₀ := block_lt hh₀
  have hrun₀ : isRun fs.fsFrag cgp.cgBlksfree fs.fsFrag (h₀ * fs.fsFrag) = true :=
    isRun_iff.mpr ⟨hg.adjacent_block.mpr hblk₀, .inl (Nat.mul_mod_left ..),
      .inl (by rw [Nat.mul_mod_left, Nat.zero_add])⟩
  obtain ⟨r, p, hp, hsearch, hrun⟩ := mapsearch_spec hg hpos le_rfl hfrotor
    ⟨h₀ * fs.fsFrag, by omega, hrun₀⟩ bpref
  obtain ⟨had, -, -⟩ := isRun_iff.mp hrun
  obtain ⟨hstart, hblk⟩ := hg.block_of_full had
  have hlt : p < fs.fsFpg := by
    by_contra hge
    have hclr := hbeyond p (Nat.le_of_not_lt hge) hp
    rw [had.2 p (Nat.le_refl p) (by omega)] at hclr
    cases hclr
  obtain ⟨fs', cgp', hgot, hsum, -, hmap'⟩ := gotit_spec fs { cgp with cgFrotor := r, cgRotor := p } p
  refine ⟨fs', cgp', p / fs.fsFrag, Nat.div_lt_div_of_lt_of_dvd hg.whole hlt, ?_, hblk, hsum, ?_⟩
  · unfold nextBlock
    rw [hsearch, ← hstart]
    exact congrArg Except.ok hgot
  · rw [hmap', hg.fragstoblks]

/-- The blocks and groups that a preference is in. -/
theorem Geom.preference (hg : Geom fs) (bpref : Nat) : dtog fs bpref = (bpref / fs.fsFpg : Nat)
    ∧ blknum fs bpref = (bpref / fs.fsFrag * fs.fsFrag : Nat)
    ∧ (dtogd fs (blknum fs bpref)).toNat = bpref % fs.fsFpg / fs.fsFrag * fs.fsFrag := by
  have hblknum : blknum fs bpref = (bpref / fs.fsFrag * fs.fsFrag : Nat) := rfl
  refine ⟨rfl, hblknum, ?_⟩
  rw [hblknum, dtogd_natCast]
  obtain ⟨k, hk⟩ := hg.whole
  rw [hk, Nat.mul_comm _ fs.fsFrag, Nat.mul_mod_mul_left, Nat.mod_mul_right_div_self, Nat.mul_comm]

/-- A block of the group that is free, if there is one; the preference matters only for which. -/
theorem alloccgblk_spec (hg : Geom fs) (hfrotor : cgp.cgFrotor < fs.fsFpg)
    (hbeyond : ∀ i, fs.fsFpg ≤ i → i < howmany fs.fsFpg 8 * 8 → isset cgp.cgBlksfree i = false)
    (hfree : ∃ h < fs.fsFpg / fs.fsFrag, ffsIsblock fs cgp.cgBlksfree h = true) (bpref : Nat) :
    ∃ fs' cgp', ∃ h < fs.fsFpg / fs.fsFrag,
      ffsAlloccgblk fs cgp bpref = .ok (fs', cgp', cgbase fs cgp.cgCgx + (h * fs.fsFrag : Nat))
      ∧ ffsIsblock fs cgp.cgBlksfree h = true ∧ Summed fs fs'
      ∧ cgp'.cgBlksfree = ffsClrblock fs cgp.cgBlksfree h := by
  unfold ffsAlloccgblk
  by_cases hother : (bpref : Int) = 0 ∨ dtog fs bpref ≠ cgp.cgCgx
  · rw [if_pos hother]
    exact nextBlock_spec hg hfrotor hbeyond hfree _
  · rw [if_neg hother]
    obtain ⟨-, -, hbno⟩ := hg.preference bpref
    dsimp only
    rw [hbno, hg.fragstoblks, Nat.mul_div_cancel _ hg.pos]
    by_cases hblk : ffsIsblock fs cgp.cgBlksfree (bpref % fs.fsFpg / fs.fsFrag) = true
    · rw [if_pos hblk]
      obtain ⟨fs', cgp', hgot, hsum, -, hmap⟩ := gotit_spec fs cgp (bpref % fs.fsFpg / fs.fsFrag * fs.fsFrag)
      rw [hg.fragstoblks, Nat.mul_div_cancel _ hg.pos] at hmap
      exact ⟨fs', cgp', _, Nat.div_lt_div_of_lt_of_dvd hg.whole (Nat.mod_lt _ hg.fpg), congrArg Except.ok hgot,
        hblk, hsum, hmap⟩
    · rw [if_neg hblk]
      exact nextBlock_spec hg hfrotor hbeyond hfree _

/-! ## A group -/

theorem isset_setbits (a : Bytes) (n i j : Nat) :
    isset (setbits a n i) j = (isset a j || decide (i ≤ j ∧ j < i + n)) := by
  induction n generalizing a i with
  | zero => rw [setbits, decide_eq_false fun h => by omega, Bool.or_false]
  | succ n ih =>
    rw [setbits, ih, isset_setbit, Bool.or_assoc, ← Bool.decide_or]
    congr 1
    exact decide_eq_decide.mpr (by omega)

theorem isset_clrbits (a : Bytes) (n i j : Nat) :
    isset (clrbits a n i) j = (isset a j && !decide (i ≤ j ∧ j < i + n)) := by
  induction n generalizing a i with
  | zero => rw [clrbits, decide_eq_false fun h => by omega, Bool.not_false, Bool.and_true]
  | succ n ih =>
    rw [clrbits, ih, isset_clrbit, Bool.and_assoc, ← Bool.not_or, ← Bool.decide_or]
    congr 2
    exact decide_eq_decide.mpr (by omega)

theorem isset_clrblock_range (hg : Geom fs) (a : Bytes) (h i : Nat) : isset (ffsClrblock fs a h) i
    = (isset a i && !decide (h * fs.fsFrag ≤ i ∧ i < h * fs.fsFrag + fs.fsFrag)) := by
  rw [isset_clrblock hg]
  congr 2
  exact decide_eq_decide.mpr (mem_block_iff hg.pos)

theorem allocsize_spec (frsum : Nat → Int) (k i : Nat) : i ≤ allocsize frsum k i ∧ allocsize frsum k i ≤ i + k
    ∧ (allocsize frsum k i < i + k → frsum (allocsize frsum k i) ≠ 0)
    ∧ ∀ j, i ≤ j → j < allocsize frsum k i → frsum j = 0 := by
  induction k generalizing i with
  | zero => exact ⟨Nat.le_refl i, Nat.le_refl i, fun h => absurd h (Nat.lt_irrefl i), fun j hj hj' => by
      rw [allocsize] at hj'
      omega⟩
  | succ k ih =>
    rw [allocsize]
    by_cases hi : frsum i ≠ 0
    · rw [if_pos hi]
      exact ⟨Nat.le_refl i, Nat.le_add_right .., fun _ => hi, fun j hj hj' => by omega⟩
    · rw [if_neg hi]
      obtain ⟨hlo, hhi, hne, hzero⟩ := ih (i + 1)
      refine ⟨by omega, by omega, fun h => hne (by omega), fun j hj hj' => ?_⟩
      by_cases hij : j = i
      · rw [hij]
        exact not_not.mp hi
      · exact hzero j (by omega) hj'

/-- A run that begins in the group ends in it. -/
theorem Geom.run_inside (hg : Geom fs) (hp : p < fs.fsFpg) (had : Adjacent fs.fsFrag a p m) : p + m ≤ fs.fsFpg := by
  have hend := block_lt (Nat.div_lt_div_of_lt_of_dvd hg.whole hp)
  have hdiv := Nat.div_add_mod' p fs.fsFrag
  have hle := had.1
  omega

theorem CgOk.nbfree_iff (hc : CgOk fs c) : (fs.cg c).cgCs.csNbfree ≠ 0
    ↔ ∃ h < fs.fsFpg / fs.fsFrag, ffsIsblock fs (fs.cg c).cgBlksfree h = true := by
  rw [hc.nbfree, Int.natCast_ne_zero]
  exact Nat.count_ne_iff_exists

theorem CgOk.frsum_iff (hc : CgOk fs c) (hm : 1 ≤ m) (hmf : m < fs.fsFrag) : (fs.cg c).cgFrsum m ≠ 0
    ↔ ∃ p < fs.fsFpg, isRun fs.fsFrag (fs.cg c).cgBlksfree m p = true := by
  rw [hc.frsum m hm hmf, Int.natCast_ne_zero]
  exact Nat.count_ne_iff_exists

theorem CgOk.lt_of_isset (hc : CgOk fs c) (hi : i < howmany fs.fsFpg 8 * 8)
    (hset : isset (fs.cg c).cgBlksfree i = true) : i < fs.fsFpg := by
  by_contra hge
  rw [hc.beyond i (Nat.le_of_not_lt hge) hi] at hset
  cases hset

/-- The summaries say whether there is room. -/
theorem CgOk.room_iff (hg : Geom fs) (hc : CgOk fs c) (hn : 1 ≤ n) (hle : n ≤ fs.fsFrag) :
    HasRoom fs c n ↔ (fs.cg c).cgCs.csNbfree ≠ 0
      ∨ ∃ m, n ≤ m ∧ m < fs.fsFrag ∧ (fs.cg c).cgFrsum m ≠ 0 := by
  have hblocks := hc.nbfree_iff
  rw [hblocks]
  constructor
  · rintro ⟨p, hp, had⟩
    obtain ⟨m, p', hm, hmf, hp', hrun⟩ := exists_isRun hg.pos (fs.fsFrag - n) n p (by omega) hn had
    by_cases hfull : m = fs.fsFrag
    · subst hfull
      obtain ⟨-, hblk⟩ := hg.block_of_full (isRun_iff.mp hrun).1
      exact .inl ⟨_, Nat.div_lt_div_of_lt_of_dvd hg.whole (by omega), hblk⟩
    · exact .inr ⟨m, hm, by omega, (hc.frsum_iff (by omega) (by omega)).mpr ⟨p', by omega, hrun⟩⟩
  · rintro (⟨h, hh, hblk⟩ | ⟨m, hm, hmf, hne⟩)
    · have hend := block_lt hh
      exact ⟨h * fs.fsFrag, by omega, (hg.adjacent_block.mpr hblk).mono hle⟩
    · obtain ⟨p, hp, hrun⟩ := (hc.frsum_iff (by omega) hmf).mp hne
      have had := (isRun_iff.mp hrun).1
      have hend := hg.run_inside hp had
      exact ⟨p, by omega, had.mono hm⟩

theorem taken_of_map (hin : p + n ≤ fs.fsFpg) (had : Adjacent fs.fsFrag (fs.cg c).cgBlksfree p n)
    (hcg : fs'.cg = Function.update fs.cg c cgp)
    (hmap : ∀ i, isset cgp.cgBlksfree i
      = (isset (fs.cg c).cgBlksfree i && !decide (p ≤ i ∧ i < p + n))) : Taken fs fs' c p n := by
  refine ⟨hin, had, fun e i => ?_⟩
  rw [hcg]
  by_cases hec : e = c
  · rw [hec, Function.update_self, hmap]
    congr 2
    exact decide_eq_decide.mpr (by omega)
  · rw [Function.update_of_ne hec, decide_eq_false fun h => hec h.1, Bool.not_false, Bool.and_true]

theorem cgbase_add (fs : Fs) (c p : Nat) : cgbase fs c + p = (c * fs.fsFpg + p : Nat) := by
  rw [cgbase, Int.natCast_add, Int.natCast_mul, Int.mul_comm]

/-- `ffs_alloccg` takes `n` fragments if there is room for them, and else it does nothing. -/
theorem alloccg_spec (h : FsOk fs) (hc : c < fs.fsNcg) (hn : 1 ≤ n) (hle : n ≤ fs.fsFrag) (pref : Nat) :
    (HasRoom fs c n → ∃ fs' p, ffsAlloccg fs c pref (n <<< fs.fsFshift) = .ok (fs', (c * fs.fsFpg + p : Nat))
      ∧ Taken fs fs' c p n)
    ∧ (¬HasRoom fs c n → ffsAlloccg fs c pref (n <<< fs.fsFshift) = .ok (fs, 0)) := by
  have hcg := h.groups c hc
  have hroom := hcg.room_iff h.toGeom hn hle
  have hsize : n <<< fs.fsFshift = fs.fsBsize ↔ n = fs.fsFrag := by
    rw [h.bsize, Nat.shiftLeft_eq, Nat.shiftLeft_eq]
    exact Nat.mul_left_inj (Nat.two_pow_pos _).ne'
  have hfrags : numfrags fs (n <<< fs.fsFshift) = n := Nat.shiftLeft_shiftRight ..
  unfold ffsAlloccg
  rw [hcg.cs, hcg.read, if_neg (show ¬true = false by decide)]
  simp only [hsize, hfrags]
  by_cases hnone : (fs.cg c).cgCs.csNbfree = 0 ∧ n = fs.fsFrag
  · rw [if_pos hnone]
    refine ⟨fun hyes => ?_, fun _ => rfl⟩
    obtain h0 | ⟨m, hm, hmf, -⟩ := hroom.mp hyes
    · exact absurd hnone.1 h0
    · omega
  · rw [if_neg hnone, if_neg hnone]
    by_cases hfull : n = fs.fsFrag
    · -- a complete block
      have hne : (fs.cg c).cgCs.csNbfree ≠ 0 := fun h0 => hnone ⟨h0, hfull⟩
      rw [if_pos hfull]
      obtain ⟨fs', cgp', b, hb, halloc, hblk, ⟨cs, total, max, rfl⟩, hmap⟩ :=
        alloccgblk_spec h.toGeom hcg.frotor hcg.beyond (hcg.nbfree_iff.mp hne) pref
      rw [halloc, hcg.cgx, cgbase_add]
      refine ⟨fun _ => ⟨_, b * fs.fsFrag, rfl, ?_⟩, fun hno => absurd (hroom.mpr (.inl hne)) hno⟩
      subst hfull
      refine taken_of_map (block_lt hb) (h.toGeom.adjacent_block.mpr hblk) rfl fun i => ?_
      rw [hmap, isset_clrblock_range h.toGeom]
    · rw [if_neg hfull]
      obtain ⟨hlo, hhi, hne, hzero⟩ := allocsize_spec (fs.cg c).cgFrsum (fs.fsFrag - n) n
      generalize allocsize (fs.cg c).cgFrsum (fs.fsFrag - n) n = m at hlo hhi hne hzero ⊢
      by_cases hm : m = fs.fsFrag
      · rw [if_pos hm]
        by_cases hnb : (fs.cg c).cgCs.csNbfree = 0
        · rw [if_pos hnb]
          refine ⟨fun hyes => ?_, fun _ => rfl⟩
          obtain h0 | ⟨k, hk, hkf, hk0⟩ := hroom.mp hyes
          · exact absurd hnb h0
          · exact absurd (hzero k hk (by omega)) hk0
        · -- a block is hacked up
          rw [if_neg hnb]
          obtain ⟨fs', cgp', b, hb, halloc, hblk, ⟨cs, total, max, rfl⟩, hmap⟩ :=
            alloccgblk_spec h.toGeom hcg.frotor hcg.beyond (hcg.nbfree_iff.mp hnb) pref
          rw [halloc, hcg.cgx, cgbase_add]
          have hend := block_lt hb
          have had := h.toGeom.adjacent_block.mpr hblk
          refine ⟨fun _ => ⟨_, b * fs.fsFrag, rfl, ?_⟩, fun hno => absurd (hroom.mpr (.inl hnb)) hno⟩
          refine taken_of_map (by omega) (had.mono hle) rfl fun i => ?_
          have hbno : (dtogd fs (c * fs.fsFpg + b * fs.fsFrag : Nat)).toNat = b * fs.fsFrag := by
            rw [dtogd_natCast, Nat.mul_add_mod', Nat.mod_eq_of_lt (by omega)]
          show isset (setbits cgp'.cgBlksfree (fs.fsFrag - n)
            ((dtogd fs (c * fs.fsFpg + b * fs.fsFrag : Nat)).toNat + n)) i = _
          rw [hbno, isset_setbits, hmap, isset_clrblock_range h.toGeom]
          by_cases hback : b * fs.fsFrag + n ≤ i ∧ i < b * fs.fsFrag + n + (fs.fsFrag - n)
          · -- one that is given back
            rw [decide_eq_true hback, Bool.or_true, had.2 i (by omega) (by omega), decide_eq_false (by omega)]
            rfl
          · rw [decide_eq_false hback, Bool.or_false]
            congr 2
            exact decide_eq_decide.mpr (by omega)
      · rw [if_neg hm]
        have hfr := hne (by omega)
        refine ⟨fun _ => ?_, fun hno => absurd (hroom.mpr (.inr ⟨m, hlo, by omega, hfr⟩)) hno⟩
        obtain ⟨p₀, hp₀, hrun₀⟩ := (hcg.frsum_iff (Nat.le_trans hn hlo) (by omega)).mp hfr
        have hmap : fs.fsFpg ≤ howmany fs.fsFpg 8 * 8 := by
          unfold howmany
          omega
        obtain ⟨r, p, hp, hsearch, hrun⟩ := mapsearch_spec h.toGeom (Nat.le_trans hn hlo) (by omega) hcg.frotor
          ⟨p₀, by omega, hrun₀⟩ pref
        have had := (isRun_iff.mp hrun).1
        have hlt : p < fs.fsFpg := hcg.lt_of_isset hp (had.2 p (Nat.le_refl p) (by omega))
        have hend := h.toGeom.run_inside hlt had
        rw [hsearch]
        refine ⟨_, p, congrArg (fun x => Except.ok (_, x)) (cgbase_add fs c p), ?_⟩
        exact taken_of_map (by omega) (had.mono hlo) rfl fun i => isset_clrbits ..

/-! ## All groups -/

section Search

variable {allocator : Fs → Nat → Nat → Nat → Except Fault (Fs × Int)} {size : Nat} {room : Nat → Prop}
  {taken : Nat → Fs → Int → Prop} {cg : Nat}

/-- An allocator that takes something from a group that has room, and else does nothing. -/
def Allocates (fs : Fs) (allocator : Fs → Nat → Nat → Nat → Except Fault (Fs × Int)) (size : Nat)
    (room : Nat → Prop) (taken : Nat → Fs → Int → Prop) : Prop :=
  ∀ c < fs.fsNcg, ∀ pref,
    (room c → ∃ fs' r, allocator fs c pref size = .ok (fs', r) ∧ r ≠ 0 ∧ taken c fs' r)
    ∧ (¬room c → allocator fs c pref size = .ok (fs, 0))

/-- The result of a search in some groups: something was taken, or none of them has room. -/
def Searched (fs : Fs) (room : Nat → Prop) (taken : Nat → Fs → Int → Prop)
    (r : Except Fault (Fs × Int)) (tried : Nat → Prop) : Prop :=
  (∃ c < fs.fsNcg, room c ∧ ∃ fs' addr, r = .ok (fs', addr) ∧ addr ≠ 0 ∧ taken c fs' addr)
    ∨ r = .ok (fs, 0) ∧ ∀ c, tried c → ¬room c

theorem Allocates.try (ha : Allocates fs allocator size room taken) (hc : c < fs.fsNcg) (pref : Nat) :
    Searched fs room taken (allocator fs c pref size) (· = c) := by
  by_cases hroom : room c
  · obtain ⟨fs', r, heq, hne, htaken⟩ := (ha c hc pref).1 hroom
    exact .inl ⟨c, hc, hroom, fs', r, heq, hne, htaken⟩
  · refine .inr ⟨(ha c hc pref).2 hroom, fun e he => ?_⟩
    rw [he]
    exact hroom

/-- One search after another. -/
theorem Searched.andThen {r : Except Fault (Fs × Int)} {tried tried' : Nat → Prop}
    (hr : Searched fs room taken r tried) (next : Fs → Except Fault (Fs × Int))
    (hnext : Searched fs room taken (next fs) tried') :
    Searched fs room taken (r >>= fun x => if x.2 ≠ 0 then .ok (x.1, x.2) else next x.1)
      (fun c => tried c ∨ tried' c) := by
  rcases hr with ⟨c, hc, hroom, fs', addr, rfl, hne, htaken⟩ | ⟨rfl, hno⟩
  · exact .inl ⟨c, hc, hroom, fs', addr, if_pos hne, hne, htaken⟩
  · rcases hnext with hyes | ⟨hnone, hno'⟩
    · exact .inl hyes
    · exact .inr ⟨hnone, fun c hc => hc.elim (hno c) (hno' c)⟩

theorem next_eq (hcg : cg < fs.fsNcg) (hi : i < fs.fsNcg) :
    (if fs.fsNcg ≤ cg + i then cg + i - fs.fsNcg else cg + i) = (cg + i) % fs.fsNcg := by
  split
  · rename_i hle
    rw [Nat.mod_eq_sub_mod hle, Nat.mod_eq_of_lt (by omega)]
  · rename_i hlt
    exact (Nat.mod_eq_of_lt (Nat.lt_of_not_le hlt)).symm

/-- The rehash gets to the group `i` after the first. -/
theorem rehash_searched (ha : Allocates fs allocator size room taken) : ∀ rounds i cg, cg < fs.fsNcg →
    Searched fs room taken (rehash allocator size rounds i cg fs)
      (fun c => 0 < rounds ∧ i < fs.fsNcg ∧ c = (cg + i) % fs.fsNcg) := by
  intro rounds
  induction rounds with
  | zero => exact fun i cg _ => .inr ⟨rfl, fun c hc => absurd hc.1 (Nat.lt_irrefl 0)⟩
  | succ rounds ih =>
    intro i cg hcg
    rw [rehash]
    by_cases hi : i < fs.fsNcg
    · rw [if_pos hi, next_eq hcg hi]
      have hlt : (cg + i) % fs.fsNcg < fs.fsNcg := Nat.mod_lt _ (Nat.zero_lt_of_lt hi)
      rcases (ha.try hlt 0).andThen (rehash allocator size rounds (i * 2) ((cg + i) % fs.fsNcg))
        (ih (i * 2) _ hlt) with hyes | ⟨hnone, hno⟩
      · exact .inl hyes
      · exact .inr ⟨hnone, fun c hc => hno c (.inl hc.2.2)⟩
    · rw [if_neg hi]
      exact .inr ⟨rfl, fun c hc => absurd hc.2.1 hi⟩

/-- The brute force search gets to as many groups as it is told to. -/
theorem brute_searched (ha : Allocates fs allocator size room taken) : ∀ n cg, cg < fs.fsNcg →
    Searched fs room taken (brute allocator size n cg fs)
      (fun c => ∃ j < n, c = (cg + j) % fs.fsNcg) := by
  intro n
  induction n with
  | zero => exact fun cg _ => .inr ⟨rfl, fun c ⟨j, hj, _⟩ => absurd hj (Nat.not_lt_zero j)⟩
  | succ n ih =>
    intro cg hcg
    have hpos : 0 < fs.fsNcg := Nat.zero_lt_of_lt hcg
    have hnext : (if cg + 1 = fs.fsNcg then 0 else cg + 1) = (cg + 1) % fs.fsNcg := by
      split
      · rename_i heq
        rw [heq, Nat.mod_self]
      · exact (Nat.mod_eq_of_lt (by omega)).symm
    have hrest := ih ((cg + 1) % fs.fsNcg) (Nat.mod_lt _ hpos)
    rw [← hnext] at hrest
    rcases (ha.try hcg 0).andThen
      (fun fs => brute allocator size n (if cg + 1 = fs.fsNcg then 0 else cg + 1) fs) hrest with hyes | ⟨hnone, hno⟩
    · exact .inl hyes
    · refine .inr ⟨hnone, fun c hc => ?_⟩
      obtain ⟨j, hj, hcj⟩ := hc
      cases j with
      | zero => exact hno c (.inl (by rw [hcj, Nat.add_zero, Nat.mod_eq_of_lt hcg]))
      | succ j =>
        refine hno c (.inr ⟨j, Nat.lt_of_succ_lt_succ hj, ?_⟩)
        rw [hcj, hnext, Nat.mod_add_mod, Nat.add_assoc, Nat.add_comm 1]

/-- Every group is tried: the first, the next one, or the others. -/
theorem hashalloc_searched (ha : Allocates fs allocator size room taken) (hcg : cg < fs.fsNcg) (pref : Nat) :
    Searched fs room taken (ffsHashalloc fs cg pref size allocator) (· < fs.fsNcg) := by
  have hpos : 0 < fs.fsNcg := Nat.zero_lt_of_lt hcg
  have hlater := (rehash_searched ha fs.fsNcg 1 cg hcg).andThen
    (fun fs => brute allocator size (fs.fsNcg - 2) ((cg + 2) % fs.fsNcg) fs)
    (brute_searched ha (fs.fsNcg - 2) _ (Nat.mod_lt (cg + 2) hpos))
  have hall := (ha.try hcg pref).andThen
    (fun fs => rehash allocator size fs.fsNcg 1 cg fs >>= fun x =>
      if x.2 ≠ 0 then .ok (x.1, x.2) else brute allocator size (x.1.fsNcg - 2) ((cg + 2) % x.1.fsNcg) x.1)
    hlater
  rcases hall with hyes | ⟨hnone, hno⟩
  · exact .inl hyes
  · refine .inr ⟨hnone, fun c hc => hno c ?_⟩
    -- how far it is from the first group
    obtain ⟨d, hd, hcd⟩ : ∃ d < fs.fsNcg, c = (cg + d) % fs.fsNcg := by
      by_cases hle : cg ≤ c
      · exact ⟨c - cg, by omega, by rw [Nat.add_sub_cancel' hle, Nat.mod_eq_of_lt hc]⟩
      · refine ⟨c + fs.fsNcg - cg, by omega, ?_⟩
        rw [Nat.add_sub_cancel' (by omega), Nat.add_mod_right, Nat.mod_eq_of_lt hc]
    match d, hd with
    | 0, _ => exact .inl (by rw [hcd, Nat.add_zero, Nat.mod_eq_of_lt hcg])
    | 1, hd => exact .inr (.inl ⟨hpos, hd, hcd⟩)
    | d + 2, hd =>
      refine .inr (.inr ⟨d, by omega, ?_⟩)
      rw [hcd, Nat.mod_add_mod, Nat.add_assoc, Nat.add_comm 2]

end Search

/-- `ffs_alloccg` as such an allocator. -/
theorem alloccg_allocates (h : FsOk fs) (hn : 1 ≤ n) (hle : n ≤ fs.fsFrag) :
    Allocates fs ffsAlloccg (n <<< fs.fsFshift) (HasRoom fs · n)
      (fun c fs' addr => ∃ p, addr = (c * fs.fsFpg + p : Nat) ∧ Taken fs fs' c p n) := by
  intro c hc pref
  obtain ⟨hyes, hno⟩ := alloccg_spec h hc hn hle pref
  refine ⟨fun hroom => ?_, hno⟩
  obtain ⟨fs', p, heq, htaken⟩ := hyes hroom
  refine ⟨fs', _, heq, fun hzero => ?_, p, rfl, htaken⟩
  -- the address 0 is not free
  have hfpg := h.fpg
  have hsum : c * fs.fsFpg + p = 0 := Int.natCast_eq_zero.mp hzero
  obtain ⟨hc0, rfl⟩ := Nat.add_eq_zero_iff.mp hsum
  obtain rfl : c = 0 := (Nat.mul_eq_zero.mp hc0).resolve_right hfpg.ne'
  have hset := htaken.free.2 0 (Nat.le_refl 0) (by omega)
  rw [h.reserved] at hset
  cases hset

/-- `ffs_hashalloc` with `ffs_alloccg`, for a size of whole fragments: the result is an address
exactly if there is room in some group, and then it is that of so many fragments which were free in
one block, and which alone are not free any more. -/
theorem hashalloc_finds_room (h : FsOk fs) {cg size : Nat} (hcg : cg < fs.fsNcg) (pref : Nat)
    (hfrags : 2 ^ fs.fsFshift ∣ size) (hpos : 0 < size) (hmax : size ≤ fs.fsBsize) :
    ∃ fs' addr, ffsHashalloc fs cg pref size ffsAlloccg = .ok (fs', addr)
      ∧ (addr ≠ 0 ↔ ∃ c < fs.fsNcg, HasRoom fs c (numfrags fs size))
      ∧ (addr ≠ 0 → ∃ c < fs.fsNcg, ∃ p, addr = (c * fs.fsFpg + p : Nat)
        ∧ Taken fs fs' c p (numfrags fs size)) := by
  obtain ⟨n, rfl⟩ := hfrags
  have hshift : 2 ^ fs.fsFshift * n = n <<< fs.fsFshift := by rw [Nat.shiftLeft_eq, Nat.mul_comm]
  have hn : 1 ≤ n := Nat.pos_of_mul_pos_left hpos
  have hle : n ≤ fs.fsFrag := by
    rw [h.bsize, hshift, Nat.shiftLeft_eq, Nat.shiftLeft_eq] at hmax
    exact Nat.le_of_mul_le_mul_right hmax (Nat.two_pow_pos _)
  rw [hshift, numfrags, Nat.shiftLeft_shiftRight]
  rcases hashalloc_searched (alloccg_allocates h hn hle) hcg pref with
    ⟨c, hc, hroom, fs', addr, heq, hne, htaken⟩ | ⟨heq, hno⟩
  · exact ⟨fs', addr, heq, iff_of_true hne ⟨c, hc, hroom⟩, fun _ => ⟨c, hc, htaken⟩⟩
  · refine ⟨fs, 0, heq, iff_of_false (not_not.mpr rfl) ?_, fun h0 => absurd rfl h0⟩
    rintro ⟨c, hc, hroom⟩
    exact hno c hc hroom

/-- A file system of two groups, each with a block in use, one with three free fragments in it,
and a free block. -/
def smallFs : Fs where
  fsNcg := 2
  fsFpg := 24
  fsFrag := 8
  fsFragshift := 3
  fsBsize := 4096
  fsFshift := 9
  fsContigsumsize := 2
  fsCs := fun _ => ⟨1, 3⟩
  fsCstotal := ⟨2, 6⟩
  fsMaxcluster := fun _ => 1
  cg := fun c => {
    cgCgx := c
    cgCs := ⟨1, 3⟩
    cgRotor := 0
    cgFrotor := 0
    cgFrsum := fun n => if n = 3 then 1 else 0
    cgBlksfree := fun i => [0x00, 0x70, 0xff].getD i 0
    cgClustersum := fun n => if n = 1 then 1 else 0
    cgClustersfree := fun i => [0x04].getD i 0
    cgNclusterblks := 3 }
  cgread := fun _ => true

theorem smallFs_ok : FsOk smallFs where
  frag := by decide
  shift := rfl
  whole := by decide
  fpg := by decide
  int := by decide
  bsize := rfl
  groups c _ := {
    read := rfl
    cgx := rfl
    rotor := Nat.succ_pos 23
    frotor := Nat.succ_pos 23
    beyond := fun i hi hlt => absurd hi (Nat.not_le.mpr hlt)
    nbfree := by
      have hone : (1 : Int) = Nat.count (fun h => ffsIsblock smallFs (smallFs.cg 0).cgBlksfree h = true) 3 := by
        decide
      exact hone
    frsum := by
      have hall : ∀ n < 8, 1 ≤ n → (smallFs.cg 0).cgFrsum n
          = Nat.count (fun p => isRun 8 (smallFs.cg 0).cgBlksfree n p = true) 24 := by decide
      exact fun n hn hlt => hall n hlt hn
    cs := rfl
    nclusterblks := Nat.le_refl 3
    clusters := by
      have hall : ∀ h < 3, isset (smallFs.cg 0).cgClustersfree h
          = ffsIsblock smallFs (smallFs.cg 0).cgBlksfree h := by decide
      exact fun _ => hall }
  reserved := by decide

theorem hashalloc_finds_room_small : ∃ fs' addr, ffsHashalloc smallFs 0 0 1024 ffsAlloccg = .ok (fs', addr)
    ∧ (addr ≠ 0 ↔ ∃ c < smallFs.fsNcg, HasRoom smallFs c (numfrags smallFs 1024))
    ∧ (addr ≠ 0 → ∃ c < smallFs.fsNcg, ∃ p, addr = (c * smallFs.fsFpg + p : Nat)
      ∧ Taken smallFs fs' c p (numfrags smallFs 1024)) :=
  hashalloc_finds_room smallFs_ok (by decide) 0 (by decide) (by decide) (by decide)

-- two of the three fragments
example : (ffsHashalloc smallFs 0 0 1024 ffsAlloccg).toOption.map Prod.snd = some 12 := by decide +kernel

end Obsd.FfsBlk
