import Obsd.PfFrag
import Obsd.PfLb
import Obsd.SearchTree

/-!
# The order of fragment queues

`pf_frag_compare` of `net/pf_norm.c` returns the difference of two unsigned
identifiers as an `int`. On a circle of 2^32 identifiers that is no order:
three of them may go round. It also leaves out the direction, which is in
the key. `totalOn_iff` says for which keys it is a total order all the same,
and for these the tree finds each queue (`frag_compare_runs`).
-/

namespace Obsd.PfFragTree

open PfState (Af)
open PfLb (Addr pfAeq)
open SearchTree

/-! ## The code -/

/-- A `struct pf_fragment_cmp`. -/
structure PfFragmentCmp where
  frSrc : Addr
  frDst : Addr
  frId : BitVec 32
  frAf : Af
  frProto : BitVec 8
  frDirection : BitVec 8
deriving DecidableEq, Repr

/-- `AF_INET` and `AF_INET6` -/
def afNum : Af → Nat
  | .inet => 2
  | .inet6 => 24

/-- Compares a word, and goes on if it is the same. -/
def compareWord (a b : BitVec 32) (next : Int) : Int :=
  if a > b then 1 else if a < b then -1 else next

def pfAddrCompare (a b : Addr) (af : Af) : Int :=
  match af with
  | .inet => compareWord a.w0 b.w0 0
  | .inet6 =>
    compareWord a.w3 b.w3 (compareWord a.w2 b.w2 (compareWord a.w1 b.w1 (compareWord a.w0 b.w0 0)))

/-- The difference if it is not 0, or else what comes next. -/
def orElse (diff next : Int) : Int := if diff ≠ 0 then diff else next

/-- All but the identifier. -/
def compareRest (a b : PfFragmentCmp) : Int :=
  orElse ((a.frProto.toNat : Int) - b.frProto.toNat) <|
  orElse ((afNum a.frAf : Int) - afNum b.frAf) <|
  orElse (pfAddrCompare a.frSrc b.frSrc a.frAf) <|
  orElse (pfAddrCompare a.frDst b.frDst a.frAf) 0

def pfFragCompare (a b : PfFragmentCmp) : Int :=
  orElse (a.frId - b.frId).toInt (compareRest a b)

/-! ## Comparing numbers -/

/-- The integer compares the numbers. -/
def Compares (d : Int) (p q : Nat) : Prop := (d < 0 ↔ p < q) ∧ (d = 0 ↔ p = q)

theorem compares_sub (p q : Nat) : Compares ((p : Int) - q) p q := by
  unfold Compares
  omega

theorem lex_lt {p q u v B : Nat} (hu : u < B) (hv : v < B) :
    (p * B + u < q * B + v ↔ p < q ∨ p = q ∧ u < v) ∧
      (p * B + u = q * B + v ↔ p = q ∧ u = v) := by
  rcases Nat.lt_trichotomy p q with h | rfl | h
  · have := Nat.mul_le_mul_right B (Nat.succ_le_of_lt h)
    rw [Nat.succ_mul] at this
    omega
  · omega
  · have := Nat.mul_le_mul_right B (Nat.succ_le_of_lt h)
    rw [Nat.succ_mul] at this
    omega

theorem Compares.orElse {d d' : Int} {p q u v B : Nat} (h : Compares d p q)
    (h' : p = q → Compares d' u v) (hu : u < B) (hv : v < B) :
    Compares (orElse d d') (p * B + u) (q * B + v) := by
  obtain ⟨hlt, heq⟩ := lex_lt (p := p) (q := q) hu hv
  unfold Compares PfFragTree.orElse at *
  by_cases hd : d = 0
  · have hpq := h.2.mp hd
    omega
  · omega

theorem compares_word {a b : BitVec 32} {next : Int} {u v B : Nat} (h : Compares next u v)
    (hu : u < B) (hv : v < B) :
    Compares (compareWord a b next) (a.toNat * B + u) (b.toNat * B + v) := by
  obtain ⟨hlt, heq⟩ := lex_lt (p := a.toNat) (q := b.toNat) hu hv
  unfold Compares compareWord at *
  by_cases hgt : a > b
  · have := BitVec.lt_def.mp hgt
    rw [if_pos hgt]
    omega
  · have hle := Nat.not_lt.mp fun h => hgt (BitVec.lt_def.mpr h)
    rw [if_neg hgt]
    by_cases hlt' : a < b
    · have := BitVec.lt_def.mp hlt'
      rw [if_pos hlt']
      omega
    · have := Nat.not_lt.mp fun h => hlt' (BitVec.lt_def.mpr h)
      rw [if_neg hlt']
      omega

/-! ## Addresses and keys as numbers -/

/-- The words that are compared, as the digits of a number. -/
def addrRank (a : Addr) : Af → Nat
  | .inet => a.w0.toNat
  | .inet6 =>
    a.w3.toNat * 2 ^ 96 + (a.w2.toNat * 2 ^ 64 + (a.w1.toNat * 2 ^ 32 + a.w0.toNat))

theorem addrRank_lt (a : Addr) (af : Af) : addrRank a af < 2 ^ 128 := by
  cases af
  · unfold addrRank
    dsimp only
    omega
  · unfold addrRank
    dsimp only
    omega

theorem compares_addr (a b : Addr) (af : Af) :
    Compares (pfAddrCompare a b af) (addrRank a af) (addrRank b af) := by
  have hbase : Compares (compareWord a.w0 b.w0 0) a.w0.toNat b.w0.toNat := by
    have : Compares 0 0 0 := ⟨by omega, by omega⟩
    simpa using compares_word (a := a.w0) (b := b.w0) this Nat.one_pos Nat.one_pos
  cases af
  · exact hbase
  · have ha0 := a.w0.isLt
    have hb0 := b.w0.isLt
    exact compares_word (compares_word (compares_word hbase ha0 hb0) (by omega) (by omega))
      (by omega) (by omega)

/-- What is compared after the identifier, as a number. -/
def restRank (a : PfFragmentCmp) : Nat :=
  a.frProto.toNat * 2 ^ 261 + (afNum a.frAf * 2 ^ 256 +
    (addrRank a.frSrc a.frAf * 2 ^ 128 + (addrRank a.frDst a.frAf * 1 + 0)))

theorem afNum_lt (af : Af) : afNum af < 2 ^ 5 := by
  cases af
  · decide
  · decide

theorem afNum_inj {af af' : Af} : afNum af = afNum af' ↔ af = af' := by
  cases af <;> cases af' <;> decide

theorem compares_rest (a b : PfFragmentCmp) :
    Compares (compareRest a b) (restRank a) (restRank b) := by
  have hsrca := addrRank_lt a.frSrc a.frAf
  have hdsta := addrRank_lt a.frDst a.frAf
  have hsrcb := addrRank_lt b.frSrc b.frAf
  have hdstb := addrRank_lt b.frDst b.frAf
  have hafa := afNum_lt a.frAf
  have hafb := afNum_lt b.frAf
  refine (compares_sub _ _).orElse (fun _ => (compares_sub _ _).orElse (fun haf => ?_) ?_ ?_) ?_ ?_
  · obtain haf := afNum_inj.mp haf
    rw [← haf] at hsrcb hdstb ⊢
    have hzero : Compares 0 0 0 := ⟨by omega, by omega⟩
    exact (compares_addr _ _ _).orElse
      (fun _ => (compares_addr _ _ _).orElse (fun _ => hzero) Nat.one_pos Nat.one_pos)
      (by omega) (by omega)
  · omega
  · omega
  · omega
  · omega

/-! ## Identifiers on a circle -/

/-- How far it is from the one identifier on to the other. -/
def dist (a b : PfFragmentCmp) : Nat := (b.frId - a.frId).toNat

theorem dist_add (a b c : PfFragmentCmp) : dist a c = (dist a b + dist b c) % 2 ^ 32 := by
  simp only [dist, BitVec.toNat_sub]
  omega

theorem dist_self (a : PfFragmentCmp) : dist a a = 0 := by
  rw [dist, BitVec.sub_self]
  rfl

theorem dist_lt (a b : PfFragmentCmp) : dist a b < 2 ^ 32 := BitVec.isLt _

/-- The sign of the difference, as an `int`. -/
theorem diff_iff (a b : PfFragmentCmp) :
    ((a.frId - b.frId).toInt < 0 ↔ 0 < dist a b ∧ dist a b ≤ 2 ^ 31) ∧
      ((a.frId - b.frId).toInt = 0 ↔ dist a b = 0) := by
  have hback := dist_add b a b
  rw [dist_self] at hback
  have hab := dist_lt a b
  have hval : (a.frId - b.frId).toNat = dist b a := rfl
  rw [BitVec.toInt_eq_toNat_cond, hval]
  split
  · omega
  · omega

theorem compare_lt (a b : PfFragmentCmp) : pfFragCompare a b < 0 ↔
    (0 < dist a b ∧ dist a b ≤ 2 ^ 31) ∨ (dist a b = 0 ∧ restRank a < restRank b) := by
  obtain ⟨hneg, hzero⟩ := diff_iff a b
  obtain ⟨hlt, heq⟩ := compares_rest a b
  unfold pfFragCompare orElse
  split
  · omega
  · omega

theorem compare_eq (a b : PfFragmentCmp) : pfFragCompare a b = 0 ↔
    dist a b = 0 ∧ restRank a = restRank b := by
  obtain ⟨hneg, hzero⟩ := diff_iff a b
  obtain ⟨hlt, heq⟩ := compares_rest a b
  unfold pfFragCompare orElse
  split
  · omega
  · omega

/-! ## When it is a total order -/

/-- The keys agree in what is compared. -/
def SameQueue (a b : PfFragmentCmp) : Prop :=
  a.frId = b.frId ∧ a.frProto = b.frProto ∧ a.frAf = b.frAf ∧
    pfAeq a.frSrc b.frSrc a.frAf = true ∧ pfAeq a.frDst b.frDst a.frAf = true

/-- All fields agree; of an address, the words that the family has. -/
def Agree (a b : PfFragmentCmp) : Prop := SameQueue a b ∧ a.frDirection = b.frDirection

theorem addrRank_inj {a b : Addr} {af : Af} : addrRank a af = addrRank b af ↔ pfAeq a b af = true := by
  cases af
  · simp only [addrRank, pfAeq, beq_iff_eq, ← BitVec.toNat_inj]
  · simp only [addrRank, pfAeq, Bool.and_eq_true, beq_iff_eq, ← BitVec.toNat_inj]
    omega

theorem restRank_inj {a b : PfFragmentCmp} : restRank a = restRank b ↔
    a.frProto = b.frProto ∧ a.frAf = b.frAf ∧ pfAeq a.frSrc b.frSrc a.frAf = true ∧
      pfAeq a.frDst b.frDst a.frAf = true := by
  have hsrca := addrRank_lt a.frSrc a.frAf
  have hdsta := addrRank_lt a.frDst a.frAf
  have hsrcb := addrRank_lt b.frSrc b.frAf
  have hdstb := addrRank_lt b.frDst b.frAf
  have hafa := afNum_lt a.frAf
  have hafb := afNum_lt b.frAf
  have hnum : restRank a = restRank b ↔ a.frProto.toNat = b.frProto.toNat ∧
      afNum a.frAf = afNum b.frAf ∧ addrRank a.frSrc a.frAf = addrRank b.frSrc b.frAf ∧
      addrRank a.frDst a.frAf = addrRank b.frDst b.frAf := by
    unfold restRank
    omega
  rw [hnum, BitVec.toNat_inj, afNum_inj]
  constructor
  · rintro ⟨hproto, haf, hsrc, hdst⟩
    rw [← haf] at hsrc hdst
    exact ⟨hproto, haf, addrRank_inj.mp hsrc, addrRank_inj.mp hdst⟩
  · rintro ⟨hproto, haf, hsrc, hdst⟩
    rw [← haf]
    exact ⟨hproto, rfl, addrRank_inj.mpr hsrc, addrRank_inj.mpr hdst⟩

theorem dist_eq_zero {a b : PfFragmentCmp} : dist a b = 0 ↔ a.frId = b.frId := by
  rw [← BitVec.toNat_inj, dist, BitVec.toNat_sub]
  omega

theorem compare_eq_zero (a b : PfFragmentCmp) : pfFragCompare a b = 0 ↔ SameQueue a b := by
  rw [compare_eq, dist_eq_zero, restRank_inj]
  exact Iff.rfl

/-- The key of IPv4 fragments. -/
def ofInet (k : PfFrag.PfFragmentCmp) : PfFragmentCmp where
  frSrc := { Addr.zero with w0 := k.frSrc }
  frDst := { Addr.zero with w0 := k.frDst }
  frId := k.frId
  frAf := .inet
  frProto := k.frProto
  frDirection := k.frDirection

/-- `PfFragmentCmp.same` is what the comparison says of these. -/
theorem same_iff (a b : PfFrag.PfFragmentCmp) :
    a.same b = true ↔ pfFragCompare (ofInet a) (ofInet b) = 0 := by
  rw [compare_eq_zero]
  simp [PfFrag.PfFragmentCmp.same, SameQueue, ofInet, pfAeq, and_assoc]

/-- What makes a comparison a total order, for three keys. -/
structure TotalOn (a b c : PfFragmentCmp) : Prop where
  opposite : (pfFragCompare a b).sign = -(pfFragCompare b a).sign
  trans : pfFragCompare a b < 0 → pfFragCompare b c < 0 → pfFragCompare a c < 0
  agree : pfFragCompare a b = 0 ↔ Agree a b

/-- The identifiers do not lie opposite each other, the three of them do not go round the
circle, and the keys do not differ in their direction only. -/
structure Apart (a b c : PfFragmentCmp) : Prop where
  opposite : a.frId - b.frId ≠ 0x80000000#32
  round : 0 < dist a b → 0 < dist b c → dist a b ≤ 2 ^ 31 → dist b c ≤ 2 ^ 31 →
    dist a b + dist b c ≤ 2 ^ 31
  direction : SameQueue a b → a.frDirection = b.frDirection

theorem opposite_iff (a b : PfFragmentCmp) :
    (pfFragCompare a b).sign = -(pfFragCompare b a).sign ↔ a.frId - b.frId ≠ 0x80000000#32 := by
  have hab := compare_lt a b
  have hba := compare_lt b a
  have hab0 := compare_eq a b
  have hba0 := compare_eq b a
  have hback := dist_add b a b
  rw [dist_self] at hback
  have hltab := dist_lt a b
  have hltba := dist_lt b a
  have hval : a.frId - b.frId = 0x80000000#32 ↔ dist b a = 2 ^ 31 := by
    rw [← BitVec.toNat_inj]
    exact Iff.rfl
  rw [ne_eq, hval]
  have hsign : ∀ x y : Int, x.sign = -y.sign ↔ (x < 0 ↔ 0 < y) ∧ (x = 0 ↔ y = 0) := by
    intro x y
    rcases Int.lt_trichotomy x 0 with hx | rfl | hx
    · rw [Int.sign_eq_neg_one_of_neg hx]
      rcases Int.lt_trichotomy y 0 with hy | rfl | hy
      · rw [Int.sign_eq_neg_one_of_neg hy]; omega
      · rw [Int.sign_zero]; omega
      · rw [Int.sign_eq_one_of_pos hy]; omega
    · rw [Int.sign_zero]
      rcases Int.lt_trichotomy y 0 with hy | rfl | hy
      · rw [Int.sign_eq_neg_one_of_neg hy]; omega
      · rw [Int.sign_zero]; omega
      · rw [Int.sign_eq_one_of_pos hy]; omega
    · rw [Int.sign_eq_one_of_pos hx]
      rcases Int.lt_trichotomy y 0 with hy | rfl | hy
      · rw [Int.sign_eq_neg_one_of_neg hy]; omega
      · rw [Int.sign_zero]; omega
      · rw [Int.sign_eq_one_of_pos hy]; omega
  rw [hsign]
  omega

theorem totalOn_iff (a b c : PfFragmentCmp) : TotalOn a b c ↔ Apart a b c := by
  have hab := compare_lt a b
  have hbc := compare_lt b c
  have hac := compare_lt a c
  have hadd := dist_add a b c
  have hltba := dist_lt b a
  have hback := dist_add b a b
  rw [dist_self] at hback
  have hval : a.frId - b.frId = 0x80000000#32 ↔ dist b a = 2 ^ 31 := by
    rw [← BitVec.toNat_inj]
    exact Iff.rfl
  constructor
  · intro h
    have hopp := (opposite_iff a b).mp h.opposite
    rw [ne_eq, hval] at hopp
    refine ⟨(opposite_iff a b).mp h.opposite, fun h1 h2 h3 h4 => ?_, fun hsame => ?_⟩
    · have := hac.mp (h.trans (hab.mpr (.inl ⟨h1, h3⟩)) (hbc.mpr (.inl ⟨h2, h4⟩)))
      omega
    · exact (h.agree.mp ((compare_eq_zero a b).mpr hsame)).2
  · intro h
    refine ⟨(opposite_iff a b).mpr h.opposite, fun h1 h2 => ?_, ?_⟩
    · rcases hab.mp h1 with ⟨hpos, hle⟩ | ⟨hzero, hrank⟩
      · rcases hbc.mp h2 with ⟨hpos', hle'⟩ | ⟨hzero', -⟩
        · have := h.round hpos hpos' hle hle'
          omega
        · omega
      · rcases hbc.mp h2 with ⟨hpos', hle'⟩ | ⟨hzero', hrank'⟩
        · omega
        · omega
    · rw [compare_eq_zero]
      exact ⟨fun hsame => ⟨hsame, h.direction hsame⟩, And.left⟩

/-! ## The tree of queues -/

/-- A queue in memory, and its key. -/
structure Frag where
  addr : Nat
  key : PfFragmentCmp
deriving DecidableEq, Repr

/-- Without the queues that are removed. -/
def without (gone l : List Frag) : List Frag := l.filter fun f => f ∉ gone

/-- The queues that there are, and the tree, in the course of a run with keys from `K`. A
tree is searched and a queue is put in for the key if there is none; between the two, old
queues may have to go to make room. Trees are balanced in any way. -/
inductive Run (K : PfFragmentCmp → Prop) : List Frag → SearchTree.Tree Frag → Prop
  | init : Run K [] .leaf
  | remove {live : List Frag} {t t' : SearchTree.Tree Frag} (gone : List Frag) : Run K live t →
      t'.toList = without gone t.toList → Run K (without gone live) t'
  | fillup {live : List Frag} {t t₁ t' : SearchTree.Tree Frag} (gone : List Frag) (f : Frag) : Run K live t →
      K f.key → t.find pfFragCompare Frag.key f.key = none →
      t₁.toList = without gone t.toList →
      t'.toList = (t₁.insert pfFragCompare Frag.key f).toList →
      Run K (f :: without gone live) t'

/-- The keys come to a total order. -/
def AllApart (K : PfFragmentCmp → Prop) : Prop := ∀ a b c, K a → K b → K c → Apart a b c

theorem AllApart.orderOn {K : PfFragmentCmp → Prop} (h : AllApart K) : OrderOn pfFragCompare K where
  opp a b ha hb := by
    have htotal := ((totalOn_iff a b a).mpr (h a b a ha hb ha)).opposite
    rcases Int.lt_trichotomy (pfFragCompare b a) 0 with hlt | heq | hgt
    · rw [Int.sign_eq_neg_one_of_neg hlt, Int.neg_neg, Int.sign_eq_one_iff_pos] at htotal
      omega
    · rw [heq, Int.sign_zero, Int.neg_zero, Int.sign_eq_zero_iff_zero] at htotal
      omega
    · rw [Int.sign_eq_one_of_pos hgt, Int.sign_eq_neg_one_iff_neg] at htotal
      omega
  trans a b c ha hb hc := ((totalOn_iff a b c).mpr (h a b c ha hb hc)).trans

/-- The tree has the queues there are, in order. -/
structure Inv (K : PfFragmentCmp → Prop) (live : List Frag) (t : SearchTree.Tree Frag) : Prop where
  mem : ∀ f, f ∈ live ↔ f ∈ t.toList
  keys : ∀ f ∈ t.toList, K f.key
  inOrder : InOrder pfFragCompare Frag.key t.toList

theorem Inv.without {K : PfFragmentCmp → Prop} {live gone : List Frag} {t t' : SearchTree.Tree Frag}
    (h : Inv K live t) (ht : t'.toList = without gone t.toList) :
    Inv K (without gone live) t' := by
  unfold PfFragTree.without at ht ⊢
  refine ⟨fun f => ?_, fun f hf => ?_, ?_⟩
  · rw [ht, List.mem_filter, List.mem_filter, h.mem]
  · rw [ht] at hf
    exact h.keys f (List.mem_filter.mp hf).1
  · rw [ht]
    exact h.inOrder.filter _

theorem Run.inv {K : PfFragmentCmp → Prop} (hK : AllApart K) {live : List Frag} {t : SearchTree.Tree Frag}
    (h : Run K live t) : Inv K live t := by
  induction h with
  | init => exact ⟨fun f => Iff.rfl, fun f hf => absurd hf List.not_mem_nil, List.Pairwise.nil⟩
  | remove gone _ ht ih => exact ih.without ht
  | @fillup live t t₁ t' gone f _ hf hnone ht₁ ht' ih =>
    have ih₁ : Inv K (without gone live) t₁ := ih.without ht₁
    have hnone₁ : t₁.find pfFragCompare Frag.key f.key = none := by
      rcases hfind : t₁.find pfFragCompare Frag.key f.key with _ | g
      · rfl
      · obtain ⟨hg, heq⟩ := find_some hfind
        rw [ht₁] at hg
        exact absurd hnone (find_ne_none hK.orderOn ih.keys ih.inOrder hf
          (List.mem_filter.mp hg).1 heq)
    obtain ⟨L, R, hsplit, hins, -, -⟩ :=
      insert_toList hK.orderOn ih₁.keys ih₁.inOrder hf hnone₁
    have hmem : ∀ g, g ∈ t'.toList ↔ g = f ∨ g ∈ t₁.toList := fun g => by
      rw [ht', hins, hsplit]
      simp only [List.mem_append, List.mem_cons]
      exact or_left_comm
    refine ⟨fun g => ?_, fun g hg => ?_, ?_⟩
    · rw [hmem, List.mem_cons, ih₁.mem]
    · rcases (hmem g).mp hg with rfl | hg
      · exact hf
      · exact ih₁.keys g hg
    · rw [ht']
      exact insert_inOrder hK.orderOn ih₁.keys ih₁.inOrder hf hnone₁

/-- The comparison is a total order of three keys exactly if they are apart, and with keys
that are, the tree finds each queue there is, and for a key none of another one. -/
theorem frag_compare_runs (a b c : PfFragmentCmp) :
    (TotalOn a b c ↔ Apart a b c) ∧
      ∀ K, AllApart K → ∀ live t, Run K live t →
        (∀ f ∈ live, t.find pfFragCompare Frag.key f.key = some f) ∧
        ∀ k f, K k → t.find pfFragCompare Frag.key k = some f → f ∈ live ∧ Agree k f.key := by
  refine ⟨totalOn_iff a b c, fun K hK live t hrun => ?_⟩
  have hinv := hrun.inv hK
  refine ⟨fun f hf => ?_, fun k f hk hfind => ?_⟩
  · exact find_self hK.orderOn hinv.keys hinv.inOrder ((hinv.mem f).mp hf)
  · obtain ⟨hf, heq⟩ := find_some hfind
    have hsame := (compare_eq_zero k f.key).mp heq
    exact ⟨(hinv.mem f).mpr hf, hsame, (hK k f.key k hk (hinv.keys f hf) hk).direction hsame⟩

/-! Three fragments with identifiers a third of the circle apart, and two that differ in the
direction. -/

def fragKey (id : BitVec 32) (direction : BitVec 8) : PfFragmentCmp where
  frSrc := ⟨0x0100000a#32, 0#32, 0#32, 0#32⟩
  frDst := ⟨0x0200000a#32, 0#32, 0#32, 0#32⟩
  frId := id
  frAf := .inet6
  frProto := 17#8
  frDirection := direction

def twoKeys (k : PfFragmentCmp) : Prop := k = fragKey 1#32 1#8 ∨ k = fragKey 2#32 1#8

theorem allApart_twoKeys : AllApart twoKeys := by
  rintro a b c (rfl | rfl) (rfl | rfl) (rfl | rfl)
  all_goals exact ⟨by decide, by decide, fun _ => rfl⟩

/-- Two queues are put in and found. -/
theorem frag_compare_two :
    let f : Frag := ⟨0, fragKey 1#32 1#8⟩
    let g : Frag := ⟨1, fragKey 2#32 1#8⟩
    let t := SearchTree.Tree.node (.node .leaf f .leaf) g .leaf
    t.find pfFragCompare Frag.key f.key = some f ∧ t.find pfFragCompare Frag.key g.key = some g := by
  intro f g t
  have hone : Run twoKeys [f] (.node .leaf f .leaf) :=
    @Run.fillup twoKeys [] .leaf .leaf _ [] f .init (.inl rfl) rfl rfl rfl
  have hrun : Run twoKeys [g, f] t :=
    @Run.fillup twoKeys [f] (.node .leaf f .leaf) (.node .leaf f .leaf) t [] g hone (.inr rfl)
      (by decide) (by decide) (by decide)
  have hfind := ((frag_compare_runs f.key g.key g.key).2 twoKeys allApart_twoKeys _ _ hrun).1
  exact ⟨hfind f (by simp), hfind g (by simp)⟩

theorem frag_compare_round :
    pfFragCompare (fragKey 0#32 1#8) (fragKey 0x60000000#32 1#8) < 0 ∧
      pfFragCompare (fragKey 0x60000000#32 1#8) (fragKey 0xc0000000#32 1#8) < 0 ∧
      0 < pfFragCompare (fragKey 0#32 1#8) (fragKey 0xc0000000#32 1#8) ∧
      pfFragCompare (fragKey 0#32 1#8) (fragKey 0#32 2#8) = 0 ∧
      ¬ Agree (fragKey 0#32 1#8) (fragKey 0#32 2#8) := by
  refine ⟨by decide, by decide, by decide, by decide, fun h => absurd h.2 (by decide)⟩

end Obsd.PfFragTree
