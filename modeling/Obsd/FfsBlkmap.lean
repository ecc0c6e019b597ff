import Mathlib
import Obsd.FfsBlock

/-!
# The map of a cylinder group

What the operations on the map of free fragments do, whatever `fs_frag` is:
`ffs_isblock` and `ffs_clrblock` are about all the fragments of a block, and
`ffs_mapsearch` finds a run of free fragments of the length it is asked for,
if there is one. A byte of the map has one block or more in it, never a part
of one, so what the tables say of a byte can be checked byte by byte.
-/

namespace Obsd.FfsBlk

open Bytes

variable {fs : Fs} {cgp : Cg} {a : Bytes} {f i h n p : Nat}

/-! ## Fragments and blocks -/

/-- The sizes fit together. -/
structure Geom (fs : Fs) : Prop where
  frag : fs.fsFrag = 1 ∨ fs.fsFrag = 2 ∨ fs.fsFrag = 4 ∨ fs.fsFrag = 8
  shift : fs.fsFrag = 2 ^ fs.fsFragshift
  whole : fs.fsFrag ∣ fs.fsFpg
  fpg : 0 < fs.fsFpg
  int : fs.fsFpg < 2 ^ 31

theorem Geom.pos (hg : Geom fs) : 0 < fs.fsFrag := by
  rw [hg.shift]
  exact Nat.two_pow_pos _

theorem Geom.dvd (hg : Geom fs) : fs.fsFrag ∣ 8 := by
  rcases hg.frag with hf | hf | hf | hf <;> rw [hf] <;> decide

theorem Geom.fragstoblks (hg : Geom fs) (n : Nat) : fragstoblks fs n = n / fs.fsFrag := by
  rw [FfsBlk.fragstoblks, Nat.shiftRight_eq_div_pow, ← hg.shift]

theorem Geom.blkstofrags (hg : Geom fs) (n : Nat) : blkstofrags fs n = n * fs.fsFrag := by
  rw [FfsBlk.blkstofrags, Nat.shiftLeft_eq, ← hg.shift]

/-- The bits of a mask are those of the block `k` of a byte. -/
def MaskOf (f k : Nat) (m : BitVec 8) : Prop := ∀ b < 8, m.getLsbD b = decide (b / f = k)

instance (f k : Nat) (m : BitVec 8) : Decidable (MaskOf f k m) :=
  inferInstanceAs (Decidable (∀ b < 8, m.getLsbD b = decide (b / f = k)))

theorem and_mask_iff {m x : BitVec 8} {k : Nat} (hm : MaskOf f k m) :
    x &&& m = m ↔ ∀ b < 8, b / f = k → x.getLsbD b = true := by
  constructor
  · intro heq b hb hk
    have hbit := congrArg (fun v : BitVec 8 => v.getLsbD b) heq
    simp only [BitVec.getLsbD_and, hm b hb, decide_eq_true hk, Bool.and_true] at hbit
    exact hbit
  · intro hall
    refine BitVec.eq_of_getLsbD_eq fun b hb => ?_
    rw [BitVec.getLsbD_and, hm b hb]
    by_cases hk : b / f = k
    · rw [hall b hb hk, Bool.true_and]
    · rw [decide_eq_false hk, Bool.and_false]

/-- The blocks of a byte, one after the other. -/
theorem div_eq_iff (hdvd : f ∣ 8) : i / f = h ↔ i / 8 = h / (8 / f) ∧ i % 8 / f = h % (8 / f) := by
  obtain ⟨g, hg⟩ := hdvd
  have hf : 0 < f := Nat.pos_of_ne_zero fun h0 => by simp [h0] at hg
  rw [hg, Nat.mul_div_cancel_left g hf, ← Nat.div_div_eq_div_mul, Nat.mod_mul_right_div_self]
  exact Bitmap.eq_iff_div_mod

theorem isset_of_div_iff (hdvd : f ∣ 8) :
    (∀ b < 8, b / f = h % (8 / f) → (a (h / (8 / f))).getLsbD b = true)
      ↔ ∀ i, i / f = h → isset a i = true := by
  constructor
  · intro hall i hi
    obtain ⟨hword, hblk⟩ := (div_eq_iff hdvd).mp hi
    have hbit := hall (i % 8) (Nat.mod_lt _ (by decide)) hblk
    rwa [← hword] at hbit
  · intro hall b hb hblk
    have hi := hall (8 * (h / (8 / f)) + b) ((div_eq_iff hdvd).mpr ⟨by omega, by
      rwa [Nat.mul_add_mod, Nat.mod_eq_of_lt hb]⟩)
    rwa [isset, Bitmap.bit_mul_add a hb] at hi

theorem isset_setWord {m : BitVec 8} (hdvd : f ∣ 8) (hm : MaskOf f (h % (8 / f)) m) (a : Bytes) (i : Nat) :
    isset (Bitmap.setWord a (h / (8 / f)) (a (h / (8 / f)) &&& ~~~m)) i
      = (isset a i && !decide (i / f = h)) := by
  have hi : i % 8 < 8 := Nat.mod_lt _ (by decide)
  have hiff := div_eq_iff (i := i) (h := h) hdvd
  unfold isset Bitmap.bit Bitmap.setWord
  by_cases hword : i / 8 = h / (8 / f)
  · rw [if_pos hword, BitVec.getLsbD_and, BitVec.getLsbD_not, hm _ hi, decide_eq_true hi, Bool.true_and, ← hword]
    congr 2
    exact decide_eq_decide.mpr ⟨fun hb => hiff.mpr ⟨hword, hb⟩, fun hb => (hiff.mp hb).2⟩
  · rw [if_neg hword, decide_eq_false fun hb => hword (hiff.mp hb).1, Bool.not_false, Bool.and_true]

/-- The mask of a block, and the two operations in terms of it. -/
theorem exists_mask (hg : Geom fs) (a : Bytes) (h : Nat) : ∃ m, MaskOf fs.fsFrag (h % (8 / fs.fsFrag)) m
    ∧ ffsIsblock fs a h = (a (h / (8 / fs.fsFrag)) &&& m == m)
    ∧ ffsClrblock fs a h
      = Bitmap.setWord a (h / (8 / fs.fsFrag)) (a (h / (8 / fs.fsFrag)) &&& ~~~m) := by
  rcases hg.frag with hf | hf | hf | hf
  · have hmask : ∀ k < 8, MaskOf 1 k (0x01#8 <<< k) := by decide
    have hk : h &&& 7 = h % 8 := Nat.and_two_pow_sub_one_eq_mod h 3
    refine ⟨0x01#8 <<< (h &&& 7), ?_, ?_, ?_⟩
    · rw [hf, hk]
      exact hmask _ (Nat.mod_lt _ (by decide))
    · simp only [ffsIsblock, hf, Nat.shiftRight_eq_div_pow]
    · simp only [ffsClrblock, hf, Nat.shiftRight_eq_div_pow]
  · have hmask : ∀ k < 4, MaskOf 2 k (0x03#8 <<< (k <<< 1)) := by decide
    have hk : h &&& 3 = h % 4 := Nat.and_two_pow_sub_one_eq_mod h 2
    refine ⟨0x03#8 <<< ((h &&& 3) <<< 1), ?_, ?_, ?_⟩
    · rw [hf, hk]
      exact hmask _ (Nat.mod_lt _ (by decide))
    · simp only [ffsIsblock, hf, Nat.shiftRight_eq_div_pow]
    · simp only [ffsClrblock, hf, Nat.shiftRight_eq_div_pow]
  · have hmask : ∀ k < 2, MaskOf 4 k (0x0f#8 <<< (k <<< 2)) := by decide
    have hk : h &&& 1 = h % 2 := Nat.and_two_pow_sub_one_eq_mod h 1
    refine ⟨0x0f#8 <<< ((h &&& 1) <<< 2), ?_, ?_, ?_⟩
    · rw [hf, hk]
      exact hmask _ (Nat.mod_lt _ (by decide))
    · simp only [ffsIsblock, hf, Nat.shiftRight_eq_div_pow]
    · simp only [ffsClrblock, hf, Nat.shiftRight_eq_div_pow]
  · have hmask : MaskOf 8 0 0xff#8 := by decide
    have hall : ∀ x : BitVec 8, x &&& 0xff#8 = x := fun x => BitVec.and_allOnes
    have hk : h / (8 / 8) = h := Nat.div_one h
    refine ⟨0xff#8, ?_, ?_, ?_⟩
    · rw [hf, Nat.mod_one]
      exact hmask
    · simp only [ffsIsblock, hf, hk, hall]
    · simp only [ffsClrblock, hf, hk]
      rw [show ~~~0xff#8 = 0#8 from rfl, BitVec.and_zero]
      rfl

theorem isblock_iff (hg : Geom fs) (a : Bytes) (h : Nat) :
    ffsIsblock fs a h = true ↔ ∀ i, i / fs.fsFrag = h → isset a i = true := by
  obtain ⟨m, hm, hisblock, -⟩ := exists_mask hg a h
  rw [hisblock, beq_iff_eq, and_mask_iff hm, isset_of_div_iff hg.dvd]

theorem isset_clrblock (hg : Geom fs) (a : Bytes) (h i : Nat) :
    isset (ffsClrblock fs a h) i = (isset a i && !decide (i / fs.fsFrag = h)) := by
  obtain ⟨m, hm, -, hclr⟩ := exists_mask hg a h
  rw [hclr, isset_setWord hg.dvd hm]

/-! ## Runs of free fragments -/

/-- The `n` fragments from `p` on are in one block, free, and those next to them in the block are
not. -/
def isRun (frag : Nat) (a : Bytes) (n p : Nat) : Bool :=
  decide (p % frag + n ≤ frag) && (List.range n).all (fun j => isset a (p + j))
    && (p % frag == 0 || !isset a (p - 1)) && (p % frag + n == frag || !isset a (p + n))

/-- The same of a byte. -/
def byteRun (frag x n q : Nat) : Bool :=
  decide (q % frag + n ≤ frag) && (List.range n).all (fun j => x.testBit (q + j))
    && (q % frag == 0 || !x.testBit (q - 1)) && (q % frag + n == frag || !x.testBit (q + n))

/-- What `siftBlocks` does in one byte. -/
def siftByte (frag n x : Nat) : (m b : Nat) → Option Nat
  | 0, _ => none
  | m + 1, b =>
    match sift (((x >>> b) &&& (0xff >>> (8 - frag))) <<< 1) (frag - n + 1) 0 (around.getD n 0)
        (inside.getD n 0) with
    | some pos => some (b + pos)
    | none => siftByte frag n x m (b + frag)

/-- The table says whether there is a run in the byte, and then it is found. -/
def byteOk (frag n x : Nat) : Bool :=
  let listed := (fragtbl frag).getD x 0 &&& 1 <<< (n - 1 + frag % 8) != 0
  match siftByte frag n x (8 / frag) 0 with
  | some q => decide (q < 8) && byteRun frag x n q && listed
  | none => (List.range 8).all (fun q => !byteRun frag x n q) && !listed

theorem byteOk_all : ∀ f ∈ [1, 2, 4, 8], ∀ n ∈ List.range' 1 f, ∀ x ∈ List.range 256, byteOk f n x = true := by
  decide +kernel

theorem Geom.byteOk (hg : Geom fs) (hn : 1 ≤ n) (hle : n ≤ fs.fsFrag) (x : BitVec 8) :
    FfsBlk.byteOk fs.fsFrag n x.toNat = true := by
  refine byteOk_all _ ?_ n (List.mem_range'_1.mpr ⟨hn, by omega⟩) _ (List.mem_range.mpr x.isLt)
  rcases hg.frag with hf | hf | hf | hf <;> rw [hf] <;> decide

theorem byteOk_cases {x : Nat} (h : byteOk f n x = true) :
    (∃ q < 8, siftByte f n x (8 / f) 0 = some q ∧ byteRun f x n q = true
      ∧ (fragtbl f).getD x 0 &&& 1 <<< (n - 1 + f % 8) ≠ 0)
    ∨ (∀ q < 8, byteRun f x n q = false) ∧ ¬(fragtbl f).getD x 0 &&& 1 <<< (n - 1 + f % 8) ≠ 0 := by
  unfold byteOk at h
  rcases hsift : siftByte f n x (8 / f) 0 with _ | q
  · rw [hsift] at h
    simp only [Bool.and_eq_true, List.all_eq_true, List.mem_range, Bool.not_eq_true', bne_eq_false_iff_eq] at h
    exact .inr ⟨h.1, not_not.mpr h.2⟩
  · rw [hsift] at h
    simp only [Bool.and_eq_true, decide_eq_true_eq, bne_iff_ne] at h
    exact .inl ⟨q, h.1.1, rfl, h.1.2, h.2⟩

theorem isset_byte (a : Bytes) (i : Nat) {q : Nat} (hq : q < 8) : isset a (i * 8 + q) = (a i).toNat.testBit q := by
  rw [isset, Nat.mul_comm, Bitmap.bit_mul_add a hq]
  rfl

/-- A run is in one byte. -/
theorem isRun_byte (hdvd : f ∣ 8) (a : Bytes) (i : Nat) {q : Nat} (hq : q < 8) :
    isRun f a n (i * 8 + q) = byteRun f (a i).toNat n q := by
  have hmod : (i * 8 + q) % f = q % f := by
    obtain ⟨g, hg⟩ := hdvd
    rw [hg, Nat.mul_comm f g, ← Nat.mul_assoc, Nat.mul_comm, Nat.mul_add_mod]
  unfold isRun byteRun
  rw [hmod]
  by_cases hblk : q % f + n ≤ f
  · -- the block ends in the byte
    have hend : f * (q / f) + f ≤ 8 := by
      obtain ⟨g, hg⟩ := hdvd
      have hlt : q / f < g := Nat.div_lt_of_lt_mul (by rwa [← hg])
      rw [hg, ← Nat.mul_succ]
      exact Nat.mul_le_mul_left f hlt
    have hqf := Nat.div_add_mod q f
    have hall : (List.range n).all (fun j => isset a (i * 8 + q + j))
        = (List.range n).all (fun j => (a i).toNat.testBit (q + j)) := by
      rw [Bool.eq_iff_iff, List.all_eq_true, List.all_eq_true]
      refine forall₂_congr fun j hj => ?_
      have hj := List.mem_range.mp hj
      rw [Nat.add_assoc, isset_byte a i (by omega)]
    have hbefore : (q % f == 0 || !isset a (i * 8 + q - 1)) = (q % f == 0 || !(a i).toNat.testBit (q - 1)) := by
      by_cases h0 : q = 0
      · rw [h0, Nat.zero_mod]
        rfl
      · rw [Nat.add_sub_assoc (Nat.pos_of_ne_zero h0), isset_byte a i (by omega)]
    have hafter : (q % f + n == f || !isset a (i * 8 + q + n))
        = (q % f + n == f || !(a i).toNat.testBit (q + n)) := by
      by_cases hfull : q % f + n = f
      · rw [beq_iff_eq.mpr hfull, Bool.true_or, Bool.true_or]
      · rw [Nat.add_assoc, isset_byte a i (by omega)]
    rw [hall, hbefore, hafter]
  · rw [decide_eq_false hblk, Bool.false_and, Bool.false_and, Bool.false_and, Bool.false_and, Bool.false_and,
      Bool.false_and]

theorem siftBlocks_eq (hg : Geom fs) (a : Bytes) (n i : Nat) : ∀ m b, b + m * fs.fsFrag ≤ 8 →
    siftBlocks fs a n m (i * 8 + b) = (siftByte fs.fsFrag n (a i).toNat m b).map (i * 8 + ·) := by
  intro m
  induction m with
  | zero => exact fun _ _ => rfl
  | succ m ih =>
    intro b hb
    have hpos := hg.pos
    rw [Nat.succ_mul] at hb
    have hdiv : (i * 8 + b) / 8 = i := by omega
    have hmod : (i * 8 + b) % 8 = b := by omega
    rw [siftBlocks, siftByte, blkmap, hdiv, hmod, Nat.add_assoc, ih (b + fs.fsFrag) (by omega)]
    generalize sift _ _ _ _ _ = r
    cases r with
    | none => rfl
    | some pos => exact congrArg some (Nat.add_assoc ..)

/-! ## Searching -/

/-- Either the table has a bit for none of the bytes, or the search stops at the first. -/
theorem scanc_spec (table : List Nat) (mask : Nat) (a : Bytes) (size : Nat) : ∀ cp,
    (scanc table mask a size cp = 0
      ∧ ∀ i, cp ≤ i → i < cp + size → table.getD (a i).toNat 0 &&& mask = 0)
    ∨ (0 < scanc table mask a size cp ∧ scanc table mask a size cp ≤ size
      ∧ table.getD (a (cp + size - scanc table mask a size cp)).toNat 0 &&& mask ≠ 0) := by
  induction size with
  | zero => exact fun cp => .inl ⟨rfl, fun i hi hi' => by omega⟩
  | succ size ih =>
    intro cp
    rw [scanc]
    by_cases hcp : table.getD (a cp).toNat 0 &&& mask = 0
    · rw [if_pos hcp]
      have hend : cp + 1 + size = cp + (size + 1) := by omega
      have hih := ih (cp + 1)
      rw [hend] at hih
      obtain ⟨h0, hall⟩ | ⟨hpos, hle, hne⟩ := hih
      · refine .inl ⟨h0, fun i hi hi' => ?_⟩
        by_cases hic : i = cp
        · rw [hic]
          exact hcp
        · exact hall i (by omega) hi'
      · exact .inr ⟨hpos, by omega, hne⟩
    · rw [if_neg hcp]
      refine .inr ⟨Nat.succ_pos _, le_rfl, ?_⟩
      rw [Nat.add_sub_cancel]
      exact hcp

/-- A byte for which the table has the bit is found, if there is one. -/
theorem findByte_spec {start : Nat} (hstart : start < howmany fs.fsFpg 8)
    (hex : ∃ i < howmany fs.fsFpg 8,
      (fragtbl fs.fsFrag).getD (a i).toNat 0 &&& 1 <<< (n - 1 + fs.fsFrag % 8) ≠ 0) :
    ∃ i < howmany fs.fsFpg 8, findByte fs a start n = some i
      ∧ (fragtbl fs.fsFrag).getD (a i).toNat 0 &&& 1 <<< (n - 1 + fs.fsFrag % 8) ≠ 0 := by
  obtain ⟨j, hj, hlisted⟩ := hex
  unfold findByte
  obtain ⟨h0, hall⟩ | ⟨hpos, hle, hne⟩ := scanc_spec (fragtbl fs.fsFrag)
    (1 <<< (n - 1 + fs.fsFrag % 8)) a (howmany fs.fsFpg 8 - start) start
  · rw [if_pos h0]
    obtain ⟨h0', hall'⟩ | ⟨hpos', hle', hne'⟩ := scanc_spec (fragtbl fs.fsFrag)
      (1 <<< (n - 1 + fs.fsFrag % 8)) a (start + 1) 0
    · -- the byte is on one side of the start or on the other
      by_cases hlow : j < start
      · exact absurd (hall' j (Nat.zero_le j) (by omega)) hlisted
      · exact absurd (hall j (by omega) (by omega)) hlisted
    · rw [if_neg (by omega)]
      exact ⟨_, by omega, rfl, hne'⟩
  · rw [if_neg (by omega)]
    exact ⟨_, by omega, rfl, hne⟩

theorem dtogd_natCast (fs : Fs) (d : Nat) : (dtogd fs d).toNat = d % fs.fsFpg := by
  rfl

/-- A run of `n` free fragments is found, if there is one. -/
theorem mapsearch_spec (hg : Geom fs) (hn : 1 ≤ n) (hle : n ≤ fs.fsFrag) (hfrotor : cgp.cgFrotor < fs.fsFpg)
    (hex : ∃ p < howmany fs.fsFpg 8 * 8, isRun fs.fsFrag cgp.cgBlksfree n p = true) (bpref : Nat) :
    ∃ r, ∃ p < howmany fs.fsFpg 8 * 8, ffsMapsearch fs cgp bpref n = .ok ({ cgp with cgFrotor := r }, p)
      ∧ isRun fs.fsFrag cgp.cgBlksfree n p = true := by
  obtain ⟨p, hp, hrun⟩ := hex
  have hlisted : (fragtbl fs.fsFrag).getD (cgp.cgBlksfree (p / 8)).toNat 0 &&& 1 <<< (n - 1 + fs.fsFrag % 8) ≠ 0 := by
    obtain ⟨-, -, -, -, h⟩ | ⟨hnone, -⟩ := byteOk_cases (hg.byteOk hn hle (cgp.cgBlksfree (p / 8)))
    · exact h
    · have hq : p % 8 < 8 := Nat.mod_lt _ (by decide)
      have hno := hnone _ hq
      rw [← isRun_byte hg.dvd _ _ hq, Nat.mul_comm, Nat.div_add_mod, hrun] at hno
      cases hno
  have hstart : (if bpref ≠ 0 then (dtogd fs bpref).toNat / 8 else cgp.cgFrotor / 8) < howmany fs.fsFpg 8 := by
    have hmod := Nat.mod_lt bpref hg.fpg
    rw [dtogd_natCast]
    unfold howmany
    split <;> omega
  obtain ⟨i, hi, hfound, hbit⟩ := findByte_spec hstart ⟨p / 8, by omega, hlisted⟩
  obtain ⟨q, hq, hsift, hbyte, -⟩ | ⟨-, hno⟩ := byteOk_cases (hg.byteOk hn hle (cgp.cgBlksfree i))
  · refine ⟨i * 8, i * 8 + q, by omega, ?_, ?_⟩
    · have hblocks := siftBlocks_eq hg cgp.cgBlksfree n i (8 / fs.fsFrag) 0
        (by rw [Nat.zero_add]; exact Nat.div_mul_le_self 8 fs.fsFrag)
      rw [Nat.add_zero, hsift] at hblocks
      unfold ffsMapsearch
      dsimp only
      rw [hfound]
      dsimp only
      rw [hblocks]
      rfl
    · rw [isRun_byte hg.dvd _ _ hq]
      exact hbyte
  · exact absurd hbit hno

end Obsd.FfsBlk
