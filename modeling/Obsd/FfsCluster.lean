import Obsd.FfsHashalloc

/-!
# Allocating clusters

`ffs_clusteralloc` looks for so many free blocks in a row, from the
preference on, and has `ffs_alloccgblk` take them one after the other. On
the way their addresses are in variables of type `int`: where they fit, the
blocks are those that were found, and where the last does not, one of the
checks panics. In a file system of FFS1 all addresses fit.
-/

namespace Obsd.FfsBlk

open Bytes

variable {fs fs' : Fs} {cgp cgp' : Cg} {a : Bytes} {b c h i len n x : Nat} {bno addr : Int}

/-! ## What is looked for -/

/-- By the summaries there is a cluster that is long enough. -/
def Sought (fs : Fs) (c len : Nat) : Prop :=
  (len : Int) ≤ fs.fsMaxcluster c ∧ ∃ i, len ≤ i ∧ i ≤ fs.fsContigsumsize ∧ 0 < (fs.cg c).cgClustersum i

/-- The `len` blocks from `b` on are free. -/
def Cluster (fs : Fs) (c b len : Nat) : Prop :=
  0 < len ∧ b + len ≤ (fs.cg c).cgNclusterblks
    ∧ ∀ h, b ≤ h → h < b + len → ffsIsblock fs (fs.cg c).cgBlksfree h = true

/-- Where the search begins: at the preference, if it is in the group. -/
def firstBlk (fs : Fs) (c bpref : Nat) : Nat := if bpref / fs.fsFpg = c then bpref % fs.fsFpg / fs.fsFrag else 0

def FirstCluster (fs : Fs) (c bpref len b : Nat) : Prop :=
  firstBlk fs c bpref ≤ b ∧ Cluster fs c b len ∧ ∀ b', firstBlk fs c bpref ≤ b' → b' < b → ¬Cluster fs c b' len

/-- What is asked of `ffs_clusteralloc`: there is no panic, and a result is the address of the
first of `len` blocks which were free, and which alone are not free any more. -/
def ClusterRight (fs : Fs) (c bpref len : Nat) : Prop :=
  ∃ fs' addr, ffsClusteralloc fs c bpref len = .ok (fs', addr)
    ∧ (addr ≠ 0 → ∃ b, addr = (c * fs.fsFpg + b * fs.fsFrag : Nat) ∧ Cluster fs c b len
      ∧ ∀ e i, isset (fs'.cg e).cgBlksfree i = (isset (fs.cg e).cgBlksfree i
        && !decide (e = c ∧ b * fs.fsFrag ≤ i ∧ i < (b + len) * fs.fsFrag)))

/-! ## The search -/

/-- The `len` bits from `b` on are set. -/
def AllSet (a : Bytes) (b len : Nat) : Prop := ∀ i, b ≤ i → i < b + len → isset a i = true

theorem and_bit_eq_zero (v : BitVec 8) (k : Nat) : v.toNat &&& 1 <<< k = 0 ↔ v.getLsbD k = false := by
  rw [Nat.one_shiftLeft, Nat.and_two_pow]
  show _ ↔ v.toNat.testBit k = false
  rcases v.toNat.testBit k with _ | _
  · exact iff_of_true (Nat.zero_mul _) rfl
  · exact iff_of_false (by rw [Bool.toNat_true, Nat.one_mul]; exact (Nat.two_pow_pos k).ne') (by decide)

/-- The byte and the bit go on together. -/
theorem scanRun_next (a : Bytes) (len n got run : Nat) :
    (if got % 8 ≠ 7 then scanRun a len n (got + 1) run (got / 8 + 1) (a (got / 8)).toNat (1 <<< (got % 8) <<< 1)
      else scanRun a len n (got + 1) run (got / 8 + 1 + 1) (a (got / 8 + 1)).toNat 1)
    = scanRun a len n (got + 1) run ((got + 1) / 8 + 1) (a ((got + 1) / 8)).toNat (1 <<< ((got + 1) % 8)) := by
  by_cases hmid : got % 8 ≠ 7
  · have hdiv : (got + 1) / 8 = got / 8 := by omega
    have hmod : (got + 1) % 8 = got % 8 + 1 := by omega
    rw [if_pos hmid, hdiv, hmod, Nat.shiftLeft_add]
  · have hdiv : (got + 1) / 8 = got / 8 + 1 := by omega
    have hmod : (got + 1) % 8 = 0 := by omega
    rw [if_neg hmid, hdiv, hmod]
    rfl

/-- The first run of `len` bits is found, if there is one; the `run` bits before `got` are set. -/
theorem scanRun_spec (a : Bytes) (len : Nat) : ∀ n got run, run < len → run ≤ got → AllSet a (got - run) run →
    (∃ b, scanRun a len n got run (got / 8 + 1) (a (got / 8)).toNat (1 <<< (got % 8)) = some (b + len - 1, len)
      ∧ got - run ≤ b ∧ b + len ≤ got + n ∧ AllSet a b len ∧ ∀ b', got - run ≤ b' → b' < b → ¬AllSet a b' len)
    ∨ scanRun a len n got run (got / 8 + 1) (a (got / 8)).toNat (1 <<< (got % 8)) = none
      ∧ ∀ b, got - run ≤ b → b + len ≤ got + n → ¬AllSet a b len := by
  intro n
  induction n with
  | zero => exact fun got run hrun hle _ => .inr ⟨rfl, fun b hb hend => by omega⟩
  | succ n ih =>
    intro got run hrun hle hset
    rw [scanRun]
    dsimp only
    rw [scanRun_next, scanRun_next]
    by_cases hclr : (a (got / 8)).toNat &&& 1 <<< (got % 8) = 0
    · -- no run goes on here
      rw [if_pos hclr]
      have hbit : isset a got = false := (and_bit_eq_zero _ _).mp hclr
      have hbroken : ∀ b', got - run ≤ b' → b' < got + 1 → ¬AllSet a b' len := by
        intro b' hb' hlt hall
        rw [hall got (by omega) (by omega)] at hbit
        cases hbit
      obtain ⟨b, heq, hlo, hhi, hall, hfirst⟩ | ⟨heq, hno⟩ := ih (got + 1) 0 (by omega) (Nat.zero_le _)
        (fun i hi hi' => by omega)
      · refine .inl ⟨b, heq, by omega, by omega, hall, fun b' hb' hlt => ?_⟩
        by_cases hlow : b' < got + 1
        · exact hbroken b' hb' hlow
        · exact hfirst b' (by omega) hlt
      · refine .inr ⟨heq, fun b' hb' hend => ?_⟩
        by_cases hlow : b' < got + 1
        · exact hbroken b' hb' hlow
        · exact hno b' (by omega) (by omega)
    · rw [if_neg hclr]
      have hbit : isset a got = true := eq_true_of_ne_false fun hf => hclr ((and_bit_eq_zero _ _).mpr hf)
      have hmore : AllSet a (got - run) (run + 1) := by
        intro i hi hlt
        by_cases hig : i = got
        · rw [hig]
          exact hbit
        · exact hset i hi (by omega)
      by_cases hdone : run + 1 = len
      · rw [if_pos hdone]
        refine .inl ⟨got - run, ?_, le_rfl, by omega, hdone ▸ hmore, fun b' hb' hlt => by omega⟩
        rw [show got - run + len - 1 = got by omega, hdone]
      · rw [if_neg hdone]
        have hstart : got + 1 - (run + 1) = got - run := by omega
        have hih := ih (got + 1) (run + 1) (by omega) (by omega) (by rw [hstart]; exact hmore)
        rw [hstart] at hih
        obtain ⟨b, heq, hlo, hhi, hall, hfirst⟩ | ⟨heq, hno⟩ := hih
        · exact .inl ⟨b, heq, hlo, by omega, hall, hfirst⟩
        · exact .inr ⟨heq, fun b hb hend => hno b hb (by omega)⟩

/-! ## Addresses in an `int` -/

theorem int32_natCast (hx : x < 2 ^ 31) : int32 x = x := by
  unfold int32
  rw [Int.bmod_def]
  split <;> omega

theorem int32_neg (hlo : 2 ^ 31 ≤ x) (hhi : x < 2 ^ 32) : int32 x < 0 := by
  unfold int32
  rw [Int.bmod_def]
  split <;> omega

/-- An address that does not fit is taken for one in another group. -/
theorem dtog_int32_ne (hg : Geom fs) (hi : i < fs.fsFpg) (hx : 2 ^ 31 ≤ c * fs.fsFpg + i) :
    dtog fs (int32 (c * fs.fsFpg + i : Nat)) ≠ c := by
  intro heq
  have hint := hg.int
  have hfpg := hg.fpg
  obtain ⟨k, hk, hrange⟩ : ∃ k : Int, int32 (c * fs.fsFpg + i : Nat) = (c * fs.fsFpg + i : Nat) - 2 ^ 32 * k
      ∧ int32 (c * fs.fsFpg + i : Nat) < 2 ^ 31 := by
    unfold int32
    rw [Int.bmod_def]
    split
    · exact ⟨((c * fs.fsFpg + i : Nat) : Int) / 2 ^ 32, by omega, by omega⟩
    · exact ⟨((c * fs.fsFpg + i : Nat) : Int) / 2 ^ 32 + 1, by omega, by omega⟩
  generalize int32 (c * fs.fsFpg + i : Nat) = y at heq hk hrange
  have hpos : 0 < c := by
    refine Nat.pos_of_ne_zero fun h0 => ?_
    rw [h0, Nat.zero_mul] at hx
    omega
  by_cases hneg : y < 0
  · have hle : 0 ≤ (-y).tdiv fs.fsFpg := Int.tdiv_nonneg (by omega) (Int.natCast_nonneg _)
    rw [Int.neg_tdiv] at hle
    unfold dtog at heq
    omega
  · obtain ⟨m, rfl⟩ := Int.eq_ofNat_of_zero_le (Int.not_lt.mp hneg)
    have hdiv : m / fs.fsFpg = c := Int.ofNat.inj heq
    obtain ⟨hlo, hhi⟩ := (mem_block_iff hfpg).mp hdiv
    omega

/-! ## The blocks are taken -/

theorem Geom.alloccgblk_at (hg : Geom fs) (hcgx : cgp.cgCgx = c) (hh : h < fs.fsFpg / fs.fsFrag)
    (hblk : ffsIsblock fs cgp.cgBlksfree h = true) (hne : c * fs.fsFpg + h * fs.fsFrag ≠ 0) :
    ffsAlloccgblk fs cgp (c * fs.fsFpg + h * fs.fsFrag : Nat) = .ok (gotit fs cgp (h * fs.fsFrag)) := by
  have hend := block_lt hh
  have hpos := hg.pos
  obtain ⟨hdtog, -, hbno⟩ := hg.preference (c * fs.fsFpg + h * fs.fsFrag)
  have hdiv : (c * fs.fsFpg + h * fs.fsFrag) / fs.fsFpg = c := (mem_block_iff hg.fpg).mpr ⟨by omega, by omega⟩
  have hmod : (c * fs.fsFpg + h * fs.fsFrag) % fs.fsFpg = h * fs.fsFrag := by
    rw [Nat.mul_add_mod', Nat.mod_eq_of_lt (by omega)]
  rw [hmod, Nat.mul_div_cancel _ hpos] at hbno
  unfold ffsAlloccgblk
  have hin : ¬(((c * fs.fsFpg + h * fs.fsFrag : Nat) : Int) = 0
      ∨ dtog fs (c * fs.fsFpg + h * fs.fsFrag : Nat) ≠ cgp.cgCgx) := by
    omega
  rw [if_neg hin]
  dsimp only
  rw [hbno, hg.fragstoblks, Nat.mul_div_cancel _ hpos, if_pos hblk]

/-- Whatever block is taken, it is one of the group. -/
theorem nextBlock_ok {bpref : Nat} (h : nextBlock fs cgp bpref = .ok (fs', cgp', addr)) :
    Summed fs fs' ∧ cgp'.cgCgx = cgp.cgCgx ∧ 0 ≤ addr := by
  unfold nextBlock ffsMapsearch at h
  dsimp only at h
  split at h
  · cases h
  · split at h
    · cases h
    · rename_i p hp
      obtain ⟨fs₁, cgp₁, hgot, hsum, hcgx, -⟩ := gotit_spec fs { cgp with cgFrotor := _, cgRotor := p } p
      have heq := hgot.symm.trans (Except.ok.inj h)
      obtain ⟨rfl, rfl, rfl⟩ : fs₁ = fs' ∧ cgp₁ = cgp' ∧ _ = addr := by
        simpa only [Prod.mk.injEq] using heq
      refine ⟨hsum, hcgx, ?_⟩
      exact Int.natCast_nonneg _

theorem alloccgblk_ok (h : ffsAlloccgblk fs cgp bno = .ok (fs', cgp', addr)) :
    Summed fs fs' ∧ cgp'.cgCgx = cgp.cgCgx ∧ 0 ≤ addr := by
  unfold ffsAlloccgblk at h
  split at h
  · exact nextBlock_ok h
  · dsimp only at h
    split at h
    · obtain ⟨fs₁, cgp₁, hgot, hsum, hcgx, -⟩ := gotit_spec fs cgp (dtogd fs (blknum fs bno)).toNat
      have heq := hgot.symm.trans (Except.ok.inj h)
      obtain ⟨rfl, rfl, rfl⟩ : fs₁ = fs' ∧ cgp₁ = cgp' ∧ _ = addr := by
        simpa only [Prod.mk.injEq] using heq
      refine ⟨hsum, hcgx, ?_⟩
      exact Int.natCast_nonneg _
    · exact nextBlock_ok h

/-- Blocks whose addresses fit are taken one after the other. -/
theorem takeBlocks_ok : ∀ (n i : Nat) (fs : Fs) (cgp : Cg) (h : Nat), Geom fs → cgp.cgCgx = c →
    bno + i = (c * fs.fsFpg + h * fs.fsFrag : Nat) → h + n ≤ fs.fsFpg / fs.fsFrag →
    (∀ g, h ≤ g → g < h + n → ffsIsblock fs cgp.cgBlksfree g = true) →
    c * fs.fsFpg + h * fs.fsFrag ≠ 0 → (0 < n → c * fs.fsFpg + (h + n - 1) * fs.fsFrag < 2 ^ 31) →
    ∃ fs' cgp', takeBlocks bno n i fs cgp = .ok (fs', cgp') ∧ Summed fs fs'
      ∧ ∀ j, isset cgp'.cgBlksfree j
        = (isset cgp.cgBlksfree j && !decide (h * fs.fsFrag ≤ j ∧ j < (h + n) * fs.fsFrag)) := by
  intro n
  induction n with
  | zero =>
    intro i fs cgp h hg hcgx hbno hin hblks hne hfit
    refine ⟨fs, cgp, rfl, ⟨_, _, _, rfl⟩, fun j => ?_⟩
    rw [Nat.add_zero, decide_eq_false fun hj => absurd hj.2 (Nat.not_lt.mpr hj.1), Bool.not_false, Bool.and_true]
  | succ n ih =>
    intro i fs cgp h hg hcgx hbno hin hblks hne hfit
    have hlast := hfit (Nat.succ_pos n)
    have hle : h * fs.fsFrag ≤ (h + (n + 1) - 1) * fs.fsFrag := Nat.mul_le_mul_right _ (by omega)
    have hint : int32 (bno + i) = (c * fs.fsFpg + h * fs.fsFrag : Nat) := by
      rw [hbno]
      exact int32_natCast (by omega)
    obtain ⟨fs₁, cgp₁, hgot, ⟨cs, total, max, rfl⟩, hcgx₁, hmap₁⟩ := gotit_spec fs cgp (h * fs.fsFrag)
    rw [hg.fragstoblks, Nat.mul_div_cancel _ hg.pos] at hmap₁
    have hstep : ffsAlloccgblk fs cgp (int32 (bno + i))
        = .ok ({ fs with fsCs := cs, fsCstotal := total, fsMaxcluster := max }, cgp₁,
          (c * fs.fsFpg + h * fs.fsFrag : Nat)) := by
      rw [hint, hg.alloccgblk_at hcgx (by omega) (hblks h (Nat.le_refl h) (by omega)) hne, hgot, hcgx, cgbase_add]
    have hnext : bno + (i + fs.fsFrag : Nat) = (c * fs.fsFpg + (h + 1) * fs.fsFrag : Nat) := by
      rw [Nat.succ_mul]
      omega
    have hleft : ∀ g, h + 1 ≤ g → g < h + 1 + n → ffsIsblock fs cgp₁.cgBlksfree g = true := by
      intro g hg₁ hlt
      refine (isblock_iff hg _ _).mpr fun j hj => ?_
      rw [hmap₁, isset_clrblock hg, (isblock_iff hg _ _).mp (hblks g (by omega) (by omega)) j hj,
        decide_eq_false (by omega)]
      rfl
    have hlast' : 0 < n → c * fs.fsFpg + (h + 1 + n - 1) * fs.fsFrag < 2 ^ 31 := by
      intro _
      rwa [Nat.add_right_comm h 1 n, ← Nat.add_assoc] at *
    obtain ⟨fs', cgp', htake, ⟨cs', total', max', rfl⟩, hmap⟩ := ih (i + fs.fsFrag)
      { fs with fsCs := cs, fsCstotal := total, fsMaxcluster := max } cgp₁ (h + 1)
      ⟨hg.frag, hg.shift, hg.whole, hg.fpg, hg.int⟩ (hcgx₁.trans hcgx) hnext (by dsimp only; omega)
      hleft (by dsimp only; have := hg.pos; omega) hlast'
    refine ⟨{ fs with fsCs := cs', fsCstotal := total', fsMaxcluster := max' }, cgp', ?_,
      ⟨cs', total', max', rfl⟩, fun j => ?_⟩
    · rw [takeBlocks, hstep]
      show (if (c * fs.fsFpg + h * fs.fsFrag : Nat) ≠ int32 (bno + i) then _ else _) = _
      rw [hint, if_neg (not_not.mpr rfl)]
      exact htake
    · rw [hmap, hmap₁, isset_clrblock_range hg, Bool.and_assoc, ← Bool.not_or, ← Bool.decide_or]
      congr 2
      refine decide_eq_decide.mpr ?_
      dsimp only
      rw [Nat.succ_mul, show h + (n + 1) = h + 1 + n by omega]
      have hmono : (h + 1) * fs.fsFrag ≤ (h + 1 + n) * fs.fsFrag := Nat.mul_le_mul_right _ (by omega)
      omega

/-- The last address does not fit: the blocks before it may be taken, but then there is a
panic. -/
theorem takeBlocks_error : ∀ (n i : Nat) (fs : Fs) (cgp : Cg) (h : Nat), Geom fs → cgp.cgCgx = c →
    bno + i = (c * fs.fsFpg + h * fs.fsFrag : Nat) → h + n ≤ fs.fsFpg / fs.fsFrag → 0 < n →
    c * fs.fsFpg < 2 ^ 31 → 2 ^ 31 ≤ c * fs.fsFpg + (h + n - 1) * fs.fsFrag →
    ∃ e, takeBlocks bno n i fs cgp = .error e := by
  intro n
  induction n with
  | zero => exact fun i fs cgp h _ _ _ _ hn => absurd hn (Nat.lt_irrefl 0)
  | succ n ih =>
    intro i fs cgp h hg hcgx hbno hin _ hbase hlast
    have hend := block_lt (show h < fs.fsFpg / fs.fsFrag by omega)
    have hint := hg.int
    rw [takeBlocks]
    rcases hstep : ffsAlloccgblk fs cgp (int32 (bno + i)) with e | ⟨fs₁, cgp₁, addr⟩
    · exact ⟨e, rfl⟩
    · show ∃ e, (if addr ≠ int32 (bno + i) then _ else _) = _
      by_cases haddr : addr ≠ int32 (bno + i)
      · rw [if_pos haddr]
        exact ⟨_, rfl⟩
      · rw [if_neg haddr]
        obtain ⟨⟨cs, total, max, rfl⟩, hcgx₁, h0⟩ := alloccgblk_ok hstep
        rw [not_not.mp haddr, hbno] at h0
        -- this address fits
        have hfits : c * fs.fsFpg + h * fs.fsFrag < 2 ^ 31 := by
          have hhi : c * fs.fsFpg + h * fs.fsFrag < 2 ^ 32 :=
            Nat.lt_of_lt_of_le (Nat.add_lt_add hbase (show h * fs.fsFrag < 2 ^ 31 by omega)) (by decide)
          by_contra hge
          exact absurd h0 (Int.not_le.mpr (int32_neg (Nat.le_of_not_lt hge) hhi))
        have hn : 0 < n := by
          refine Nat.pos_of_ne_zero fun hz => ?_
          rw [hz, Nat.zero_add, Nat.add_sub_cancel] at hlast
          omega
        refine ih (i + fs.fsFrag) { fs with fsCs := cs, fsCstotal := total, fsMaxcluster := max } cgp₁ (h + 1)
          ⟨hg.frag, hg.shift, hg.whole, hg.fpg, hg.int⟩ (hcgx₁.trans hcgx) ?_ (by dsimp only; omega) hn hbase ?_
        · dsimp only
          rw [Nat.succ_mul]
          omega
        · rwa [show h + 1 + n - 1 = h + (n + 1) - 1 by omega]

/-! ## The whole -/

theorem scanRun_zero (mapp : Bytes) : ∀ n got run p map bit, scanRun mapp 0 n got run p map bit = none := by
  intro n
  induction n with
  | zero => exact fun _ _ _ _ _ => rfl
  | succ n ih =>
    intro got run p map bit
    rw [scanRun]
    simp only [ih, ite_self, if_false, Nat.add_eq_zero_iff, one_ne_zero, and_false]

/-- The first cluster is found, if there is one. -/
theorem CgOk.scanRun_cases (hc : CgOk fs c) (hsought : Sought fs c len) (start : Nat) :
    (∃ b, scanRun (fs.cg c).cgClustersfree len ((fs.cg c).cgNclusterblks - start) start 0 (start / 8 + 1)
        ((fs.cg c).cgClustersfree (start / 8)).toNat (1 <<< (start % 8)) = some (b + len - 1, len)
      ∧ start ≤ b ∧ Cluster fs c b len ∧ ∀ b', start ≤ b' → b' < b → ¬Cluster fs c b' len)
    ∨ scanRun (fs.cg c).cgClustersfree len ((fs.cg c).cgNclusterblks - start) start 0 (start / 8 + 1)
        ((fs.cg c).cgClustersfree (start / 8)).toNat (1 <<< (start % 8)) = none
      ∧ ∀ b, start ≤ b → ¬Cluster fs c b len := by
  rcases Nat.eq_zero_or_pos len with rfl | hlen
  · exact .inr ⟨scanRun_zero .., fun b _ h => absurd h.1 (Nat.lt_irrefl 0)⟩
  · obtain ⟨-, k, hk, hk', -⟩ := hsought
    have hiff : ∀ b, b + len ≤ (fs.cg c).cgNclusterblks
        → (AllSet (fs.cg c).cgClustersfree b len ↔ Cluster fs c b len) := by
      intro b hb
      refine Iff.trans (forall₃_congr fun h _ hlt => ?_) (by rw [Cluster, and_iff_right hlen, and_iff_right hb])
      rw [hc.clusters (by omega) h (by omega)]
    obtain ⟨b, heq, hlo, hhi, hall, hfirst⟩ | ⟨heq, hno⟩ := scanRun_spec (fs.cg c).cgClustersfree len
      ((fs.cg c).cgNclusterblks - start) start 0 hlen (Nat.zero_le _) (fun i hi hi' => by omega)
    · have hb : b + len ≤ (fs.cg c).cgNclusterblks := by omega
      refine .inl ⟨b, heq, hlo, (hiff b hb).mp hall, fun b' hb' hlt hcl => ?_⟩
      exact hfirst b' hb' hlt ((hiff b' (by omega)).mpr hcl)
    · refine .inr ⟨heq, fun b hb hcl => ?_⟩
      exact hno b hb (by have h := hcl.2.1; omega) ((hiff b hcl.2.1).mpr hcl)

theorem Geom.firstBlk_eq (hg : Geom fs) (c bpref : Nat) :
    (if dtog fs bpref ≠ c then 0 else FfsBlk.fragstoblks fs (dtogd fs (blknum fs bpref)).toNat)
      = firstBlk fs c bpref := by
  obtain ⟨hdtog, -, hbno⟩ := hg.preference bpref
  rw [hdtog, hbno, hg.fragstoblks, Nat.mul_div_cancel _ hg.pos, firstBlk]
  by_cases hin : bpref / fs.fsFpg = c
  · rw [if_pos hin, if_neg (not_not.mpr (Int.natCast_inj.mpr hin))]
  · rw [if_neg hin, if_pos (mt Int.natCast_inj.mp hin)]

/-- The cluster that is found is taken exactly if its addresses fit. -/
theorem takeCluster_right_iff (h : FsOk fs) (hc : c < fs.fsNcg) (hcl : Cluster fs c b len) :
    (∃ fs' addr, takeCluster fs c (b + len - 1) len len = .ok (fs', addr)
      ∧ (addr ≠ 0 → ∃ b, addr = (c * fs.fsFpg + b * fs.fsFrag : Nat) ∧ Cluster fs c b len
        ∧ ∀ e i, isset (fs'.cg e).cgBlksfree i = (isset (fs.cg e).cgBlksfree i
          && !decide (e = c ∧ b * fs.fsFrag ≤ i ∧ i < (b + len) * fs.fsFrag))))
    ↔ c * fs.fsFpg + (b + len - 1) * fs.fsFrag < 2 ^ 31 := by
  have hcg := h.groups c hc
  obtain ⟨hlen, hin, hblks⟩ := hcl
  have hin' : b + len ≤ fs.fsFpg / fs.fsFrag := Nat.le_trans hin hcg.nclusterblks
  have hend := block_lt (show b < fs.fsFpg / fs.fsFrag by omega)
  have hpos := h.pos
  have hchecked : ((List.range' 1 len).all fun i => ffsIsblock fs (fs.cg c).cgBlksfree (b + len - 1 + i - len)) = true := by
    refine List.all_eq_true.mpr fun i hi => ?_
    obtain ⟨hlo, hhi⟩ := List.mem_range'_1.mp hi
    exact hblks _ (by omega) (by omega)
  have hle : b * fs.fsFrag ≤ (b + len - 1) * fs.fsFrag := Nat.mul_le_mul_right _ (by omega)
  have hne : c * fs.fsFpg + b * fs.fsFrag ≠ 0 := by
    -- the first block of the file system is not free
    intro hzero
    obtain ⟨hc0, hb0⟩ := Nat.add_eq_zero_iff.mp hzero
    obtain rfl : c = 0 := (Nat.mul_eq_zero.mp hc0).resolve_right h.fpg.ne'
    obtain rfl : b = 0 := (Nat.mul_eq_zero.mp hb0).resolve_right hpos.ne'
    have hset := (isblock_iff h.toGeom _ _).mp (hblks 0 (Nat.le_refl 0) (by omega)) 0 (Nat.zero_div _)
    rw [h.reserved] at hset
    cases hset
  unfold takeCluster
  dsimp only
  rw [hchecked, if_neg (by decide), Nat.sub_add_cancel (by omega), Nat.add_sub_cancel, h.blkstofrags, cgbase_add]
  by_cases hfit : c * fs.fsFpg + (b + len - 1) * fs.fsFrag < 2 ^ 31
  · have hdtog : dtog fs (c * fs.fsFpg + b * fs.fsFrag : Nat) = c :=
      congrArg Int.ofNat ((mem_block_iff h.fpg).mpr ⟨by omega, by omega⟩)
    rw [int32_natCast (by omega), if_neg (not_not.mpr hdtog)]
    obtain ⟨fs', cgp', htake, ⟨cs, total, max, rfl⟩, hmap⟩ := takeBlocks_ok len 0 fs (fs.cg c) b h.toGeom hcg.cgx
      (Int.add_zero _) hin' hblks hne fun _ => hfit
    rw [htake]
    refine iff_of_true ⟨_, _, rfl, fun _ => ⟨b, rfl, ⟨hlen, hin, hblks⟩, fun e i => ?_⟩⟩ hfit
    show isset (Function.update fs.cg c cgp' e).cgBlksfree i = _
    by_cases hec : e = c
    · rw [hec, Function.update_self, hmap]
      congr 2
      exact decide_eq_decide.mpr (by omega)
    · rw [Function.update_of_ne hec, decide_eq_false fun hx => hec hx.1, Bool.not_false, Bool.and_true]
  · refine iff_of_false ?_ hfit
    rintro ⟨fs', addr, heq, -⟩
    by_cases hfirst : c * fs.fsFpg + b * fs.fsFrag < 2 ^ 31
    · rw [int32_natCast hfirst] at heq
      obtain ⟨e, herr⟩ := takeBlocks_error len 0 fs (fs.cg c) b h.toGeom hcg.cgx (Int.add_zero _) hin' hlen
        (by omega) (Nat.le_of_not_lt hfit)
      rw [herr] at heq
      split at heq
      · cases heq
      · cases heq
    · rw [if_pos (dtog_int32_ne h.toGeom (by omega) (Nat.le_of_not_lt hfirst))] at heq
      cases heq

/-- Either a cluster is looked for and the first is found, or nothing is taken. -/
theorem CgOk.clusteralloc_cases (hg : Geom fs) (hc : CgOk fs c) (bpref len : Nat) :
    (∃ b, Sought fs c len ∧ FirstCluster fs c bpref len b
      ∧ ffsClusteralloc fs c bpref len = takeCluster fs c (b + len - 1) len len)
    ∨ (Sought fs c len → ∀ b, ¬FirstCluster fs c bpref len b)
      ∧ ∃ fs', ffsClusteralloc fs c bpref len = .ok (fs', 0) := by
  unfold ffsClusteralloc
  dsimp only
  rw [hg.firstBlk_eq, hc.read, if_neg (show ¬true = false by decide)]
  by_cases hmax : fs.fsMaxcluster c < len
  · rw [if_pos hmax]
    exact .inr ⟨fun hs => absurd hs.1 (Int.not_le.mpr hmax), fs, rfl⟩
  · rw [if_neg hmax]
    by_cases hsum : ∃ i, len ≤ i ∧ i ≤ fs.fsContigsumsize ∧ 0 < (fs.cg c).cgClustersum i
    · have hany : ((List.range' len (fs.fsContigsumsize + 1 - len)).any
          fun i => decide ((fs.cg c).cgClustersum i > 0)) = true := by
        obtain ⟨i, hi, hle, hpos⟩ := hsum
        exact List.any_eq_true.mpr ⟨i, List.mem_range'_1.mpr ⟨hi, by omega⟩, decide_eq_true hpos⟩
      have hsought : Sought fs c len := ⟨Int.not_lt.mp hmax, hsum⟩
      rw [hany, if_neg (by decide)]
      obtain ⟨b, heq, hfirst⟩ | ⟨heq, hno⟩ := hc.scanRun_cases hsought (firstBlk fs c bpref)
      · rw [heq]
        exact .inl ⟨b, hsought, hfirst, rfl⟩
      · rw [heq]
        exact .inr ⟨fun _ b hb => hno b hb.1 hb.2.1, fs, rfl⟩
    · have hany : ((List.range' len (fs.fsContigsumsize + 1 - len)).any
          fun i => decide ((fs.cg c).cgClustersum i > 0)) = false := by
        refine List.any_eq_false.mpr fun i hi => ?_
        obtain ⟨hlo, hhi⟩ := List.mem_range'_1.mp hi
        exact fun hpos => hsum ⟨i, hlo, by omega, of_decide_eq_true hpos⟩
      rw [hany, if_pos (by decide)]
      exact .inr ⟨fun hs => absurd hs.2 hsum, _, rfl⟩

/-- There is only one first cluster. -/
theorem FirstCluster.unique {bpref b' : Nat} (hb : FirstCluster fs c bpref len b)
    (hb' : FirstCluster fs c bpref len b') : b = b' := by
  rcases Nat.lt_trichotomy b b' with hlt | heq | hlt
  · exact absurd hb.2.1 (hb'.2.2 b hb.1 hlt)
  · exact heq
  · exact absurd hb'.2.1 (hb.2.2 b' hb'.1 hlt)

/-- `ffs_clusteralloc` is right exactly if the address of the last block of the cluster that it
finds fits into an `int`. -/
theorem clusteralloc_right_iff (h : FsOk fs) (hc : c < fs.fsNcg) (bpref len : Nat) :
    ClusterRight fs c bpref len ↔ (Sought fs c len → ∀ b, FirstCluster fs c bpref len b →
      c * fs.fsFpg + (b + len - 1) * fs.fsFrag < 2 ^ 31) := by
  unfold ClusterRight
  rcases (h.groups c hc).clusteralloc_cases h.toGeom bpref len with ⟨b, hs, hfirst, heq⟩ | ⟨hno, fs', heq⟩
  · rw [heq]
    refine (takeCluster_right_iff h hc hfirst.2.1).trans ⟨fun hfit _ b' hb' => ?_, fun hfit => hfit hs b hfirst⟩
    rwa [← hfirst.unique hb']
  · exact iff_of_true ⟨fs', 0, heq, fun h0 => absurd rfl h0⟩ fun hs b hb => absurd hb (hno hs b)

theorem clusteralloc_right_small : ClusterRight smallFs 1 0 1 ↔ (Sought smallFs 1 1 → ∀ b,
    FirstCluster smallFs 1 0 1 b → 1 * smallFs.fsFpg + (b + 1 - 1) * smallFs.fsFrag < 2 ^ 31) :=
  clusteralloc_right_iff smallFs_ok (by decide) 0 1

/-- A file system of more than 2 ^ 31 fragments: of the groups of 64, that with the number 2 ^ 25
begins at 2 ^ 31. All blocks are free but the first of each group. -/
def largeFs : Fs where
  fsNcg := 2 ^ 25 + 1
  fsFpg := 64
  fsFrag := 8
  fsFragshift := 3
  fsBsize := 4096
  fsFshift := 9
  fsContigsumsize := 4
  fsCs := fun _ => ⟨7, 0⟩
  fsCstotal := ⟨7 * (2 ^ 25 + 1), 0⟩
  fsMaxcluster := fun _ => 4
  cg := fun c => {
    cgCgx := c
    cgCs := ⟨7, 0⟩
    cgRotor := 0
    cgFrotor := 0
    cgFrsum := fun _ => 0
    cgBlksfree := fun i => if i = 0 then 0x00 else 0xff
    cgClustersum := fun n => if n = 4 then 1 else 0
    cgClustersfree := fun _ => 0xfe
    cgNclusterblks := 8 }
  cgread := fun _ => true

theorem largeFs_ok : FsOk largeFs where
  frag := by decide
  shift := rfl
  whole := by decide
  fpg := by decide
  int := by decide
  bsize := rfl
  groups c _ := {
    read := rfl
    cgx := rfl
    rotor := Nat.succ_pos 63
    frotor := Nat.succ_pos 63
    beyond := fun i hi hlt => absurd hi (Nat.not_le.mpr hlt)
    nbfree := by
      have hseven : (7 : Int) = Nat.count (fun h => ffsIsblock largeFs (largeFs.cg 0).cgBlksfree h = true) 8 := by
        decide
      exact hseven
    frsum := by
      have hall : ∀ n < 8, 1 ≤ n → (largeFs.cg 0).cgFrsum n
          = Nat.count (fun p => isRun 8 (largeFs.cg 0).cgBlksfree n p = true) 64 := by decide +kernel
      exact fun n hn hlt => hall n hlt hn
    cs := rfl
    nclusterblks := Nat.le_refl 8
    clusters := by
      have hall : ∀ h < 8, isset (largeFs.cg 0).cgClustersfree h
          = ffsIsblock largeFs (largeFs.cg 0).cgBlksfree h := by decide
      exact fun _ => hall }
  reserved := by decide

/-- The block 1 of that group has the address 2 ^ 31 + 8, which becomes negative in an `int`. -/
theorem clusteralloc_out_of_group : FsOk largeFs ∧ 2 ^ 25 < largeFs.fsNcg ∧ ¬ClusterRight largeFs (2 ^ 25) 0 2 := by
  have hc : 2 ^ 25 < largeFs.fsNcg := Nat.lt_succ_self _
  have hsought : Sought largeFs (2 ^ 25) 2 := ⟨by decide, 4, by decide, by decide, by decide⟩
  have hused : ¬Cluster largeFs (2 ^ 25) 0 2 := fun hcl => absurd (hcl.2.2 0 (by decide) (by decide)) (by decide)
  have hfirst : FirstCluster largeFs (2 ^ 25) 0 2 1 := by
    have hfree : ∀ h < 8, 1 ≤ h → ffsIsblock largeFs (largeFs.cg 0).cgBlksfree h = true := by decide
    refine ⟨Nat.zero_le 1, ⟨by decide, by decide, fun h hlo hhi => hfree h (by omega) hlo⟩, fun b' _ hb' => ?_⟩
    obtain rfl : b' = 0 := by omega
    exact hused
  refine ⟨largeFs_ok, hc, ?_⟩
  rintro ⟨fs', addr, heq, hright⟩
  rcases (largeFs_ok.groups _ hc).clusteralloc_cases largeFs_ok.toGeom 0 2 with ⟨b, -, hb, htake⟩ | ⟨hno, -⟩
  · have hfit := (takeCluster_right_iff largeFs_ok hc hb.2.1).mp ⟨fs', addr, htake.symm.trans heq, hright⟩
    exact absurd hfit (Nat.not_lt.mpr (Nat.le_add_right ..))
  · exact hno hsought 1 hfirst

end Obsd.FfsBlk
