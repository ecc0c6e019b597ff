import Mathlib

/-!
# The path to a block of a file

`ufs_getlbns` of `ufs/ufs_bmap.c`: which indirect blocks lead to a block of
a file, and at which offsets. Indirect blocks have negative numbers. The
one at the root of a tree of height `r` whose first data block is `F` is
number `-(F + r - 1)`, and the function finds an indirect block by its
number in the way it finds a data block. The branches that subtract are
guarded by the comparison before them, so `bn` is a natural number here.
-/

namespace Obsd.Getlbns

/-! ## The code -/

def ndaddr : Nat := 12
def niaddr : Nat := 3

/-- A `struct indir`. -/
structure Indir where
  inLbn : Int
  inOff : Nat
deriving DecidableEq, Repr

inductive Result where
  | efbig
  | panic
  | ok (path : List Indir)
deriving DecidableEq, Repr

/-- The loop that determines the levels of indirection: `i`, what is left of the block number
and the number of data blocks at that level. -/
def level (n : Nat) : Nat → Nat → Nat → Option (Nat × Nat × Nat)
  | 0, _, _ => none
  | i + 1, bn, blockcnt =>
    if bn < blockcnt * n then some (i + 1, bn, blockcnt * n)
    else level n i (bn - blockcnt * n) (blockcnt * n)

/-- The loop down the levels, of which there are some left, and where it ends. -/
def walk (n : Nat) (realbn : Int) (bn : Nat) : Nat → Int → Nat → List Indir × Int
  | 0, metalbn, _ => ([], metalbn)
  | r + 1, metalbn, blockcnt =>
    if metalbn = realbn then ([], metalbn)
    else
      let blockcnt := blockcnt / n
      let off := bn / blockcnt % n
      let (path, last) := walk n realbn bn r (metalbn - (-1 + off * blockcnt)) blockcnt
      ({ inLbn := metalbn, inOff := off } :: path, last)

/-- `n` is `MNINDIR`, the number of pointers in an indirect block. -/
def ufsGetlbns (n : Nat) (realbn : Int) : Result :=
  let bn := realbn.natAbs
  if realbn < 0 ∧ -(ndaddr : Int) < realbn then .panic
  else if bn < ndaddr then .ok []
  else match level n niaddr (bn - ndaddr) 1 with
    | none => .efbig
    | some (i, rest, blockcnt) =>
      let metalbn := -((bn : Int) - rest + niaddr - i)
      let (path, last) := walk n realbn rest (niaddr - i + 1) metalbn blockcnt
      if realbn < 0 ∧ last ≠ realbn then .panic
      else .ok ({ inLbn := metalbn, inOff := niaddr - i } :: path)

/-! ## Trees of indirect blocks -/

/-- The first block that is at a level of indirection. -/
def first (n : Nat) : Nat → Nat
  | 0 => 0
  | 1 => ndaddr
  | l + 2 => first n (l + 1) + n ^ (l + 1)

theorem first_two (n : Nat) : first n 2 = ndaddr + n := by
  rw [first, first, pow_one]

theorem first_three (n : Nat) : first n 3 = ndaddr + n + n ^ 2 :=
  congrArg (· + n ^ 2) (first_two n)

/-- The number of the indirect block that leads to data block `bn` of a level's tree from a
height of `r`. -/
def lbn (n f bn r : Nat) : Int := -((f : Int) + (bn / n ^ r * n ^ r : Nat) + r - 1)

/-- The level of a block, and where it is in that level's tree. -/
theorem level_spec {n : Nat} {l bn : Nat} (hl : 1 ≤ l) (hl3 : l ≤ niaddr) (hbn : bn < n ^ l) :
    level n niaddr (first n l + bn - ndaddr) 1 = some (niaddr - l + 1, bn, n ^ l) := by
  obtain rfl | rfl | rfl : l = 1 ∨ l = 2 ∨ l = 3 := by
    rw [niaddr] at hl3
    omega
  · rw [pow_one] at hbn
    rw [niaddr, first, Nat.add_sub_cancel_left, level, Nat.one_mul, if_pos hbn, pow_one]
  · have hsub : first n 2 + bn - ndaddr = n + bn := by
      rw [first_two]
      omega
    rw [niaddr, hsub, level, Nat.one_mul, if_neg (by omega), level, Nat.add_sub_cancel_left, ← pow_two,
      if_pos hbn]
  · have hsub : first n 3 + bn - ndaddr = n + (n ^ 2 + bn) := by
      rw [first_three]
      omega
    rw [niaddr, hsub, level, Nat.one_mul, if_neg (by omega), level, Nat.add_sub_cancel_left, ← pow_two,
      if_neg (by omega), level, Nat.add_sub_cancel_left, ← pow_succ, if_pos hbn]

theorem level_efbig {n bn : Nat} : level n niaddr bn 1 = none ↔ n + n ^ 2 + n ^ 3 ≤ bn := by
  have hcube : n ^ 2 * n = n ^ 3 := (pow_succ n 2).symm
  rw [niaddr, level, level, level, level, Nat.one_mul, ← pow_two, hcube]
  split
  · exact iff_of_false nofun (by omega)
  · split
    · exact iff_of_false nofun (by omega)
    · split
      · exact iff_of_false nofun (by omega)
      · exact iff_of_true rfl (by omega)

/-- Every block is direct, at some level, or beyond the file's reach. -/
theorem exists_level {n bn : Nat} (h : ndaddr ≤ bn) (hbig : bn < ndaddr + (n + n ^ 2 + n ^ 3)) :
    ∃ l r, 1 ≤ l ∧ l ≤ niaddr ∧ bn = first n l + r ∧ r < n ^ l := by
  by_cases h1 : bn < ndaddr + n
  · refine ⟨1, bn - ndaddr, Nat.le_refl 1, by decide, ?_, ?_⟩
    · rw [first]
      omega
    · rw [pow_one]
      omega
  · by_cases h2 : bn < ndaddr + (n + n ^ 2)
    · refine ⟨2, bn - (ndaddr + n), by decide, by decide, ?_, ?_⟩
      · rw [first_two]
        omega
      · omega
    · refine ⟨3, bn - (ndaddr + n + n ^ 2), by decide, by decide, ?_, ?_⟩
      · rw [first_three]
        omega
      · omega

/-! ## Down the levels -/

variable {n f bn r : Nat}

/-- One level down. -/
theorem lbn_succ : lbn n f bn (r + 1) - (-1 + ((bn / n ^ r % n : Nat) * (n ^ r : Nat) : Int))
    = lbn n f bn r := by
  have hdiv : bn / n ^ (r + 1) = bn / n ^ r / n := by rw [pow_succ, Nat.div_div_eq_div_mul]
  have hsplit : bn / n ^ r * n ^ r = bn / n ^ (r + 1) * n ^ (r + 1) + bn / n ^ r % n * n ^ r := by
    have hmod := Nat.div_add_mod (bn / n ^ r) n
    calc bn / n ^ r * n ^ r = (n * (bn / n ^ r / n) + bn / n ^ r % n) * n ^ r := by rw [hmod]
      _ = bn / n ^ (r + 1) * n ^ (r + 1) + bn / n ^ r % n * n ^ r := by
        rw [hdiv, pow_succ]
        ring
  rw [lbn, lbn, hsplit]
  push_cast
  ring

theorem pow_succ_div (hn : 0 < n) : n ^ (r + 1) / n = n ^ r := by
  rw [pow_succ, Nat.mul_div_cancel _ hn]

/-- The entries of a path down from a height. -/
def entries (n f bn : Nat) : Nat → List Indir
  | 0 => []
  | r + 1 => { inLbn := lbn n f bn (r + 1), inOff := bn / n ^ r % n } :: entries n f bn r

theorem length_entries (r : Nat) : (entries n f bn r).length = r := by
  induction r with
  | zero => rfl
  | succ r ih => rw [entries, List.length_cons, ih]

theorem lbn_neg (hf : ndaddr ≤ f) : lbn n f bn r < 0 := by
  have hnd : (ndaddr : Int) = 12 := rfl
  rw [lbn]
  omega

/-- To a data block the loop goes all the way. -/
theorem walk_data (hn : 0 < n) (hf : ndaddr ≤ f) {realbn : Int} (hreal : 0 ≤ realbn) (r : Nat) :
    walk n realbn bn r (lbn n f bn r) (n ^ r) = (entries n f bn r, lbn n f bn 0) := by
  induction r with
  | zero => rfl
  | succ r ih =>
    have hne : lbn n f bn (r + 1) ≠ realbn := by
      have hneg : lbn n f bn (r + 1) < 0 := lbn_neg hf
      omega
    rw [walk, if_neg hne]
    dsimp only
    rw [pow_succ_div hn, lbn_succ, ih, entries]

/-- Blocks in one subtree have the way down to it in common. -/
theorem div_eq_of_le {bn' k : Nat} (h : bn' / n ^ k = bn / n ^ k) (hr : k ≤ r) :
    bn' / n ^ r = bn / n ^ r := by
  rw [← Nat.sub_add_cancel hr, Nat.add_comm, pow_add, ← Nat.div_div_eq_div_mul, h, Nat.div_div_eq_div_mul]

/-- On the way to the root of a subtree of height `k` no other block has its number. -/
theorem lbn_ne {k : Nat} (hk : 1 ≤ k) (hkr : k < r) (hr : r < n + k) : lbn n f bn r ≠ lbn n f bn k := by
  intro he
  have hdvd : n ∣ bn / n ^ r * n ^ r := Dvd.dvd.mul_left (dvd_pow_self n (by omega)) _
  have hdvd' : n ∣ bn / n ^ k * n ^ k := Dvd.dvd.mul_left (dvd_pow_self n (by omega)) _
  rw [lbn, lbn] at he
  have heq : bn / n ^ k * n ^ k = bn / n ^ r * n ^ r + (r - k) := by omega
  rw [heq] at hdvd'
  have hlt : n ≤ r - k := Nat.le_of_dvd (by omega) ((Nat.dvd_add_right hdvd).mp hdvd')
  omega

/-- To the root of a subtree the loop goes as it does to the blocks below. -/
theorem walk_meta (hn : 0 < n) {bn' k : Nat} (hk : 1 ≤ k) (hbn : bn' / n ^ k = bn / n ^ k) :
    ∀ r, k ≤ r → r < n + k → walk n (lbn n f bn k) bn' r (lbn n f bn r) (n ^ r)
      = ((entries n f bn r).take (r - k), lbn n f bn k) := by
  intro r
  induction r with
  | zero =>
    intro hkr
    omega
  | succ r ih =>
    intro hkr hrn
    by_cases hlast : k = r + 1
    · rw [walk, ← hlast, if_pos rfl, Nat.sub_self, List.take_zero]
    · have hle : k ≤ r := by omega
      have hoff : bn' / n ^ r = bn / n ^ r := div_eq_of_le hbn hle
      rw [walk, if_neg (lbn_ne hk (by omega) hrn)]
      dsimp only
      rw [pow_succ_div hn, hoff, lbn_succ, ih hle (by omega), Nat.succ_sub hle, entries,
        List.take_succ_cons]

/-! ## Paths -/

theorem lbn_top (hbn : bn < n ^ r) : lbn n f bn r = -((f : Int) + r - 1) := by
  rw [lbn, Nat.div_eq_of_lt hbn, Nat.zero_mul, Int.natCast_zero, Int.add_zero]

theorem ndaddr_le_first {l : Nat} (hl : 1 ≤ l) : ndaddr ≤ first n l := by
  induction l, hl using Nat.le_induction with
  | base => exact le_rfl
  | succ l hl ih =>
    obtain ⟨m, rfl⟩ : ∃ m, l = m + 1 := ⟨l - 1, by omega⟩
    exact Nat.le_trans ih (Nat.le_add_right _ _)

/-- The path to a block of a level. -/
def pathTo (n l bn : Nat) : List Indir :=
  { inLbn := lbn n (first n l) bn l, inOff := l - 1 } :: entries n (first n l) bn l

theorem getlbns_data (hn : 0 < n) {l : Nat} (hl : 1 ≤ l) (hl3 : l ≤ niaddr) (hbn : bn < n ^ l) :
    ufsGetlbns n (first n l + bn : Nat) = .ok (pathTo n l bn) := by
  have hge := ndaddr_le_first (n := n) hl
  have hi : niaddr - (niaddr - l + 1) = l - 1 := by omega
  have hlev : l - 1 + 1 = l := by omega
  have hmeta : -(((first n l + bn : Nat) : Int) - bn + niaddr - ((niaddr - l + 1 : Nat) : Int))
      = lbn n (first n l) bn l := by
    rw [lbn_top hbn]
    omega
  rw [ufsGetlbns]
  rw [Int.natAbs_natCast, if_neg (by omega), if_neg (by omega), level_spec hl hl3 hbn]
  dsimp only
  rw [hmeta, hi, hlev, walk_data hn hge (Int.natCast_nonneg _) l]
  rw [if_neg (by omega), pathTo]

/-- The path to an indirect block is the beginning of the path to every block below. -/
theorem getlbns_meta (hn : 3 ≤ n) {l k : Nat} (hl3 : l ≤ niaddr) (hbn : bn < n ^ l) (hk : 1 ≤ k)
    (hkl : k ≤ l) : ufsGetlbns n (lbn n (first n l) bn k) = .ok ((pathTo n l bn).take (l - k + 1)) := by
  have hl : 1 ≤ l := Nat.le_trans hk hkl
  have hge := ndaddr_le_first (n := n) hl
  have hn3 : niaddr = 3 := rfl
  have hi : niaddr - (niaddr - l + 1) = l - 1 := by omega
  have hlev : l - 1 + 1 = l := by omega
  -- where the number of the indirect block points when it is taken for a data block's
  have hpow : k - 1 < n ^ k := by
    have hlt : k < n ^ k := Nat.lt_pow_self (by omega)
    omega
  have hdiv : (bn / n ^ k * n ^ k + (k - 1)) / n ^ k = bn / n ^ k := by
    rw [Nat.mul_comm, Nat.mul_add_div (by omega), Nat.div_eq_of_lt hpow, Nat.add_zero]
  have hlt : bn / n ^ k * n ^ k + (k - 1) < n ^ l := by
    have hsplit : n ^ l = n ^ (l - k) * n ^ k := by rw [← pow_add, Nat.sub_add_cancel hkl]
    have hq : bn / n ^ k < n ^ (l - k) := Nat.div_lt_of_lt_mul (by rw [Nat.mul_comm, ← hsplit]; exact hbn)
    calc bn / n ^ k * n ^ k + (k - 1) < bn / n ^ k * n ^ k + n ^ k := by omega
      _ = (bn / n ^ k + 1) * n ^ k := by ring
      _ ≤ n ^ (l - k) * n ^ k := Nat.mul_le_mul_right _ hq
      _ = n ^ l := hsplit.symm
  have habs : (lbn n (first n l) bn k).natAbs = first n l + (bn / n ^ k * n ^ k + (k - 1)) := by
    rw [lbn]
    omega
  have hmeta : -(((first n l + (bn / n ^ k * n ^ k + (k - 1)) : Nat) : Int)
      - ((bn / n ^ k * n ^ k + (k - 1) : Nat) : Int) + niaddr - ((niaddr - l + 1 : Nat) : Int))
      = lbn n (first n l) bn l := by
    rw [lbn_top hbn]
    omega
  rw [ufsGetlbns]
  rw [habs, if_neg (by omega), if_neg (by omega), level_spec hl hl3 hlt]
  dsimp only
  rw [hmeta, hi, hlev, walk_meta (by omega) hk hdiv l hkl (by omega)]
  rw [if_neg fun h => h.2 rfl, pathTo, List.take_succ_cons]

/-- The offsets are the digits of what is left of the block number. -/
theorem foldl_entries (r a : Nat) :
    ((entries n f bn r).map Indir.inOff).foldl (fun a d => a * n + d) a = a * n ^ r + bn % n ^ r := by
  induction r generalizing a with
  | zero => rw [entries, List.map_nil, List.foldl_nil, pow_zero, Nat.mul_one, Nat.mod_one, Nat.add_zero]
  | succ r ih =>
    rw [entries, List.map_cons, List.foldl_cons, ih]
    have hmod : bn % n ^ (r + 1) = bn % n ^ r + n ^ r * (bn / n ^ r % n) := by rw [pow_succ, Nat.mod_mul]
    rw [hmod, pow_succ]
    ring

theorem off_lt (hn : 0 < n) : ∀ r, ∀ d ∈ (entries n f bn r).map Indir.inOff, d < n := by
  intro r
  induction r with
  | zero => exact fun d hd => nomatch hd
  | succ r ih =>
    rw [entries, List.map_cons, List.forall_mem_cons]
    exact ⟨Nat.mod_lt _ hn, ih⟩

theorem getElem?_entries {r k : Nat} {e : Indir} (h : (entries n f bn r)[k]? = some e) :
    k < r ∧ e.inLbn = lbn n f bn (r - k) := by
  induction r generalizing k with
  | zero => cases h
  | succ r ih =>
    cases k with
    | zero =>
      obtain rfl := Option.some.inj h
      exact ⟨Nat.succ_pos r, rfl⟩
    | succ k =>
      obtain ⟨hlt, he⟩ := ih h
      rw [Nat.succ_sub_succ]
      exact ⟨Nat.succ_lt_succ hlt, he⟩

/-- The path of a block of the file. -/
theorem getlbns_cases (hn : 0 < n) (bn : Nat) :
    (ndaddr + (n + n ^ 2 + n ^ 3) ≤ bn ∧ ufsGetlbns n bn = .efbig)
    ∨ (bn < ndaddr ∧ ufsGetlbns n bn = .ok [])
    ∨ ∃ l r, 1 ≤ l ∧ l ≤ niaddr ∧ bn = first n l + r ∧ r < n ^ l ∧ ufsGetlbns n bn = .ok (pathTo n l r)
      ∧ bn < ndaddr + (n + n ^ 2 + n ^ 3) := by
  by_cases hbig : ndaddr + (n + n ^ 2 + n ^ 3) ≤ bn
  · refine .inl ⟨hbig, ?_⟩
    have hlev : level n niaddr (bn - ndaddr) 1 = none := level_efbig.mpr (by omega)
    rw [ufsGetlbns]
    rw [Int.natAbs_natCast, if_neg (by omega), if_neg (by omega), hlev]
  · by_cases hdir : bn < ndaddr
    · refine .inr (.inl ⟨hdir, ?_⟩)
      rw [ufsGetlbns]
      rw [Int.natAbs_natCast, if_neg (by omega), if_pos hdir]
    · obtain ⟨l, r, hl, hl3, rfl, hr⟩ := exists_level (Nat.le_of_not_lt hdir) (Nat.lt_of_not_le hbig)
      exact .inr (.inr ⟨l, r, hl, hl3, rfl, hr, getlbns_data hn hl hl3 hr, Nat.lt_of_not_le hbig⟩)

theorem getlbns_prefix_of_path (hn : 3 ≤ n) {bn : Nat} {path : List Indir} (h : ufsGetlbns n bn = .ok path)
    {k : Nat} {e : Indir} (hk : 1 ≤ k) (he : path[k]? = some e) :
    e.inLbn < 0 ∧ ufsGetlbns n e.inLbn = .ok (path.take k) := by
  obtain ⟨-, hb⟩ | ⟨-, hd⟩ | ⟨l, r, hl, hl3, -, hr, hp, -⟩ := getlbns_cases (n := n) (by omega) bn
  · rw [hb] at h
    cases h
  · rw [hd] at h
    obtain rfl := Result.ok.inj h
    cases he
  · rw [hp] at h
    obtain rfl := Result.ok.inj h
    obtain ⟨j, rfl⟩ : ∃ j, k = j + 1 := ⟨k - 1, by omega⟩
    obtain ⟨hj, hlbn⟩ := getElem?_entries (show (entries n (first n l) r l)[j]? = some e from he)
    have hmeta := getlbns_meta hn hl3 hr (show 1 ≤ l - j by omega) (Nat.sub_le l j)
    rw [hlbn, hmeta, show l - (l - j) + 1 = j + 1 by omega]
    exact ⟨lbn_neg (ndaddr_le_first hl), rfl⟩

/-- `ufs_getlbns`: what it fails for, the path to a block, and that an indirect block is known
by its number. A block on a path is told by the offsets on the way to it. -/
theorem getlbns_paths (n : Nat) (hn : 3 ≤ n) :
    (∀ bn : Nat, ufsGetlbns n bn = .efbig ↔ ndaddr + (n + n ^ 2 + n ^ 3) ≤ bn)
    ∧ (∀ bn : Nat, bn < ndaddr → ufsGetlbns n bn = .ok [])
    ∧ (∀ bn : Nat, ndaddr ≤ bn → bn < ndaddr + (n + n ^ 2 + n ^ 3) → ∃ path l ds,
      ufsGetlbns n bn = .ok path ∧ 1 ≤ l ∧ l ≤ niaddr ∧ ds.length = l ∧ (∀ d ∈ ds, d < n)
      ∧ bn = first n l + ds.foldl (fun a d => a * n + d) 0 ∧ path.map Indir.inOff = (l - 1) :: ds)
    ∧ (∀ (bn bn' : Nat) (path path' : List Indir), ufsGetlbns n bn = .ok path →
      ufsGetlbns n bn' = .ok path' → ∀ k k' e e', 1 ≤ k → 1 ≤ k' → path[k]? = some e →
      path'[k']? = some e' → e.inLbn = e'.inLbn →
      (path.take k).map Indir.inOff = (path'.take k').map Indir.inOff)
    ∧ (∀ (bn : Nat) (path : List Indir), ufsGetlbns n bn = .ok path → ∀ k e, 1 ≤ k → path[k]? = some e →
      e.inLbn < 0 ∧ ufsGetlbns n e.inLbn = .ok (path.take k)) := by
  have hpos : 0 < n := by omega
  refine ⟨fun bn => ?_, fun bn hbn => ?_, fun bn hge hlt => ?_, ?_, ?_⟩
  · obtain ⟨hbig, hb⟩ | ⟨hdir, hd⟩ | ⟨l, r, -, -, -, -, hp, hlt⟩ := getlbns_cases hpos bn
    · exact iff_of_true hb hbig
    · rw [hd]
      exact iff_of_false nofun (by omega)
    · rw [hp]
      exact iff_of_false nofun (by omega)
  · obtain ⟨hbig, -⟩ | ⟨-, hd⟩ | ⟨l, r, hl, -, hbn', -⟩ := getlbns_cases hpos bn
    · omega
    · exact hd
    · have hge := ndaddr_le_first (n := n) hl
      omega
  · obtain ⟨hbig, -⟩ | ⟨hdir, -⟩ | ⟨l, r, hl, hl3, hbn, hr, hp, -⟩ := getlbns_cases hpos bn
    · omega
    · omega
    · refine ⟨pathTo n l r, l, (entries n (first n l) r l).map Indir.inOff, hp, hl, hl3, ?_,
        off_lt hpos l, ?_, rfl⟩
      · rw [List.length_map, length_entries]
      · rw [foldl_entries, Nat.zero_mul, Nat.zero_add, Nat.mod_eq_of_lt hr]
        exact hbn
  · intro bn bn' path path' h h' k k' e e' hk hk' he he' heq
    obtain ⟨-, hpre⟩ := getlbns_prefix_of_path hn h hk he
    obtain ⟨-, hpre'⟩ := getlbns_prefix_of_path hn h' hk' he'
    rw [heq, hpre'] at hpre
    rw [Result.ok.inj hpre]
  · exact fun bn path h k e hk he => getlbns_prefix_of_path hn h hk he

/-- With three pointers to a block, the last block that a file can have. -/
theorem getlbns_paths_three : (3 : Nat) ≤ 3 ∧ ufsGetlbns 3 50 =
      .ok [⟨-26, 2⟩, ⟨-26, 2⟩, ⟨-43, 2⟩, ⟨-48, 2⟩]
    ∧ ufsGetlbns 3 (-43) = .ok [⟨-26, 2⟩, ⟨-26, 2⟩] ∧ ufsGetlbns 3 (51 : Nat) = .efbig := by
  refine ⟨by decide, by decide, ?_, ((getlbns_paths 3 (by decide)).1 51).mpr (by decide)⟩
  have hprefix := (getlbns_paths 3 (by decide)).2.2.2.2 50 [⟨-26, 2⟩, ⟨-26, 2⟩, ⟨-43, 2⟩, ⟨-48, 2⟩]
    (by decide) 2 ⟨-43, 2⟩ (by decide) rfl
  exact hprefix.2

end Obsd.Getlbns
