import Mathlib

/-!
# The order of masks

`net/radix.c` keeps the masks of one key, and those of a subtree, in lists
with the most specific first. Masks of one index of which none refines the
other are ordered by `rn_lexobetter`: the longer one first, and of two of
equal length the one with the greater byte where they differ. The number of
bytes that it compares is read from behind the mask; `mask_order_iff` says
when they are enough.
-/

namespace Obsd.Radix

variable {mem : Nat → BitVec 8} {m n : Nat}

/-- As `memcmp` of `k` bytes: 0, or the sign of the first difference. -/
def memcmp (mem : Nat → BitVec 8) (m n : Nat) : Nat → Int
  | 0 => 0
  | k + 1 =>
      if mem m = mem n then memcmp mem (m + 1) (n + 1) k
      else (mem m).toNat - (mem n).toNat

/-- `rn_lexobetter` of the masks at `m` and `n`. -/
def rnLexobetter (mem : Nat → BitVec 8) (m n : Nat) : Bool :=
  if (mem n).toNat < (mem m).toNat then true
  else if (mem m).toNat < (mem n).toNat then false
  else
    let lim := m + (mem m).toNat
    decide (0 < memcmp mem m n (mem lim).toNat)

/-- `rn_refines`: the mask at `m` has the bits of the one at `n`, and others. -/
def rnRefines (mem : Nat → BitVec 8) (m n : Nat) : Bool :=
  let common := min (mem n).toNat (mem m).toNat
  let both := List.range' 1 (common - 1)
  let rest (p : Nat) := List.range' (max 1 common) ((mem p).toNat - max 1 common)
  if both.any fun i => mem (n + i) &&& ~~~mem (m + i) != 0 then false
  else if (rest n).any fun i => mem (n + i) != 0 then false
  else if both.all (fun i => mem (n + i) == mem (m + i)) && (rest m).any fun i => mem (m + i) != 0 then
    true
  else !both.all fun i => mem (n + i) == mem (m + i)

/-- A mask is put into the list of a duplicated key, or into a list of masks, among those of
its index. -/
def insertMask (mem : Nat → BitVec 8) (netmask : Nat) : List Nat → List Nat
  | [] => [netmask]
  | t :: rest =>
      if t = netmask then t :: rest
      else if rnRefines mem netmask t || rnLexobetter mem netmask t then netmask :: t :: rest
      else t :: insertMask mem netmask rest

/-! ## Masks -/

/-- The bytes of a mask; the first is their number. -/
def mask (mem : Nat → BitVec 8) (p : Nat) : List Nat :=
  (List.range (mem p).toNat).map fun i => (mem (p + i)).toNat

/-- There is a mask at `p`, without trailing zero bytes. -/
def Normalized (mem : Nat → BitVec 8) (p : Nat) : Prop :=
  0 < (mem p).toNat ∧ mem (p + ((mem p).toNat - 1)) ≠ 0

/-- The byte at `d` is the first one in which the two masks differ, and greater in the one
at `m`. -/
def Above (mem : Nat → BitVec 8) (m n d : Nat) : Prop :=
  d < (mem m).toNat ∧ (∀ i < d, mem (m + i) = mem (n + i)) ∧ (mem (n + d)).toNat < (mem (m + d)).toNat

/-- `rn_lexobetter` is a strict total order of the masks at the places in `S`, and the longer
masks come first. -/
structure Ordered (mem : Nat → BitVec 8) (S : Set Nat) : Prop where
  irrefl : ∀ m ∈ S, rnLexobetter mem m m = false
  trans : ∀ m ∈ S, ∀ n ∈ S, ∀ p ∈ S, rnLexobetter mem m n = true → rnLexobetter mem n p = true →
    rnLexobetter mem m p = true
  one : ∀ m ∈ S, ∀ n ∈ S, mask mem m ≠ mask mem n →
    (rnLexobetter mem m n = true ↔ rnLexobetter mem n m = false)
  longer : ∀ m ∈ S, ∀ n ∈ S, (mask mem n).length < (mask mem m).length → rnLexobetter mem m n = true

/-- Where two masks of one length differ, the byte behind the greater one is a number that
counts the byte in which they do. -/
def Reached (mem : Nat → BitVec 8) (S : Set Nat) : Prop :=
  ∀ m ∈ S, ∀ n ∈ S, mem m = mem n → ∀ d, Above mem m n d → d < (mem (m + (mem m).toNat)).toNat

@[simp] theorem mask_length (mem : Nat → BitVec 8) (p : Nat) :
    (mask mem p).length = (mem p).toNat := by
  rw [mask, List.length_map, List.length_range]

theorem memcmp_pos_iff (k : Nat) : ∀ {m n : Nat}, 0 < memcmp mem m n k ↔
    ∃ d < k, (∀ i < d, mem (m + i) = mem (n + i)) ∧ (mem (n + d)).toNat < (mem (m + d)).toNat := by
  induction k with
  | zero =>
      intro m n
      exact ⟨fun h => absurd h (Int.lt_irrefl 0), fun ⟨d, hd, _⟩ => absurd hd (Nat.not_lt_zero d)⟩
  | succ k ih =>
      intro m n
      rw [memcmp]
      split
      · rename_i heq
        rw [ih]
        constructor
        · rintro ⟨d, hd, hsame, hlt⟩
          refine ⟨d + 1, Nat.succ_lt_succ hd, fun i hi => ?_, ?_⟩
          · cases i with
            | zero => exact heq
            | succ i =>
                have := hsame i (Nat.lt_of_succ_lt_succ hi)
                rwa [Nat.add_assoc, Nat.add_assoc, Nat.add_comm 1 i] at this
          · rwa [Nat.add_assoc, Nat.add_assoc, Nat.add_comm 1 d] at hlt
        · rintro ⟨d, hd, hsame, hlt⟩
          cases d with
          | zero => exact absurd hlt (by rw [Nat.add_zero, Nat.add_zero, heq]; exact Nat.lt_irrefl _)
          | succ d =>
              refine ⟨d, Nat.lt_of_succ_lt_succ hd, fun i hi => ?_, ?_⟩
              · have := hsame (i + 1) (Nat.succ_lt_succ hi)
                rwa [Nat.add_assoc, Nat.add_assoc, Nat.add_comm 1 i]
              · rwa [Nat.add_assoc, Nat.add_assoc, Nat.add_comm 1 d]
      · rename_i hne
        constructor
        · intro h
          refine ⟨0, Nat.succ_pos k, fun i hi => absurd hi (Nat.not_lt_zero i), ?_⟩
          rw [Nat.add_zero, Nat.add_zero]
          omega
        · rintro ⟨d, -, hsame, hlt⟩
          cases d with
          | zero =>
              rw [Nat.add_zero, Nat.add_zero] at hlt
              omega
          | succ d => exact absurd (hsame 0 (Nat.succ_pos d)) hne

/-- The order of masks is that of their bytes. -/
theorem mask_lt_iff (hlen : mem m = mem n) : mask mem n < mask mem m ↔ ∃ d, Above mem m n d := by
  rw [List.lt_iff_exists]
  simp only [mask_length, hlen, Nat.lt_irrefl, and_false, false_or]
  unfold mask Above
  simp only [List.getElem_map, List.getElem_range, hlen]
  constructor
  · rintro ⟨d, hd, -, hsame, hlt⟩
    exact ⟨d, hd, fun i hi => (BitVec.eq_of_toNat_eq (hsame i hi)).symm, hlt⟩
  · rintro ⟨d, hd, hsame, hlt⟩
    exact ⟨d, hd, hd, fun i hi => congrArg BitVec.toNat (hsame i hi).symm, hlt⟩

theorem mask_lt_of_length (hn : Normalized mem n) (h : (mem n).toNat < (mem m).toNat) :
    mask mem n < mask mem m := by
  rw [List.lt_iff_exists]
  have hpos : 0 < (mem n).toNat := hn.1
  refine .inr ⟨0, by rwa [mask_length], by rw [mask_length]; omega, fun j hj => absurd hj (by omega), ?_⟩
  simpa [mask] using h

/-- With the byte behind the mask read as a number of bytes. -/
theorem rnLexobetter_iff (mem : Nat → BitVec 8) (m n : Nat) :
    rnLexobetter mem m n = true ↔ (mem n).toNat < (mem m).toNat ∨ (mem m = mem n ∧
      0 < memcmp mem m n (mem (m + (mem m).toNat)).toNat) := by
  unfold rnLexobetter
  rcases Nat.lt_trichotomy (mem n).toNat (mem m).toNat with h | h | h
  · simp [h]
  · have heq : mem m = mem n := BitVec.eq_of_toNat_eq h.symm
    simp [heq]
  · have hne : mem m ≠ mem n := fun he => absurd h (by rw [he]; exact Nat.lt_irrefl _)
    simp [h, Nat.lt_asymm h, hne]

section Places

variable {S : Set Nat}

theorem better_iff (hS : ∀ p ∈ S, Normalized mem p)
    (hone : ∀ m ∈ S, ∀ n ∈ S, mask mem m = mask mem n → m = n) (h : Reached mem S) (hm : m ∈ S)
    (hn : n ∈ S) : rnLexobetter mem m n = true ↔ mask mem n < mask mem m := by
  rw [rnLexobetter_iff]
  rcases Nat.lt_trichotomy (mem n).toNat (mem m).toNat with hlt | heq | hgt
  · exact iff_of_true (.inl hlt) (mask_lt_of_length (hS n hn) hlt)
  · have heq : mem m = mem n := BitVec.eq_of_toNat_eq heq.symm
    rw [mask_lt_iff heq, heq, memcmp_pos_iff, ← heq]
    constructor
    · rintro (hlt | ⟨-, d, hd, hsame, hlt⟩)
      · exact absurd hlt (Nat.lt_irrefl _)
      · by_contra hno
        have hge : ¬d < (mem m).toNat := fun hd => hno ⟨d, hd, hsame, hlt⟩
        -- masks that are the same are at one place
        have hmask : mask mem m = mask mem n := by
          unfold mask
          rw [← heq]
          refine List.map_congr_left fun i hi => ?_
          rw [hsame i (by have := List.mem_range.mp hi; omega)]
        obtain rfl := hone m hm n hn hmask
        exact Nat.lt_irrefl _ hlt
    · rintro ⟨d, hd⟩
      exact .inr ⟨rfl, d, h m hm n hn heq d hd, hd.2.1, hd.2.2⟩
  · have hne : mem m ≠ mem n := fun he => absurd hgt (by rw [he]; exact Nat.lt_irrefl _)
    have hback := mask_lt_of_length (hS m hm) hgt
    refine iff_of_false ?_ (lt_asymm hback)
    rintro (hlt | ⟨he, -⟩)
    · omega
    · exact hne he

theorem ordered_iff (hS : ∀ p ∈ S, Normalized mem p)
    (hone : ∀ m ∈ S, ∀ n ∈ S, mask mem m = mask mem n → m = n) : Ordered mem S ↔ Reached mem S := by
  constructor
  · intro h m hm n hn heq d hd
    have hlt : mask mem n < mask mem m := (mask_lt_iff heq).mpr ⟨d, hd⟩
    have hno : rnLexobetter mem n m = false := by
      rw [← Bool.not_eq_true, rnLexobetter_iff, heq, memcmp_pos_iff]
      rintro (hlt' | ⟨-, d', -, hsame, hlt'⟩)
      · exact Nat.lt_irrefl _ hlt'
      · rcases Nat.lt_trichotomy d d' with hdd | rfl | hdd
        · exact absurd hd.2.2 (by rw [hsame d hdd]; exact Nat.lt_irrefl _)
        · exact Nat.lt_asymm hlt' hd.2.2
        · exact absurd hlt' (by rw [hd.2.1 d' hdd]; exact Nat.lt_irrefl _)
    have hyes := (h.one m hm n hn (ne_of_gt hlt)).mpr hno
    rw [rnLexobetter_iff, heq, memcmp_pos_iff, ← heq] at hyes
    obtain ⟨-, d', hd', hsame, hlt'⟩ := hyes.resolve_left (Nat.lt_irrefl _)
    rcases Nat.lt_trichotomy d d' with hdd | rfl | hdd
    · exact Nat.lt_trans hdd hd'
    · exact hd'
    · exact absurd hlt' (by rw [hd.2.1 d' hdd]; exact Nat.lt_irrefl _)
  · intro h
    refine ⟨fun m hm => ?_, fun m hm n hn p hp => ?_, fun m hm n hn hne => ?_, fun m hm n hn hlen => ?_⟩
    · rw [← Bool.not_eq_true, better_iff hS hone h hm hm]
      exact lt_irrefl _
    · rw [better_iff hS hone h hm hn, better_iff hS hone h hn hp, better_iff hS hone h hm hp]
      exact fun h₁ h₂ => lt_trans h₂ h₁
    · rw [← Bool.not_eq_true, better_iff hS hone h hm hn, better_iff hS hone h hn hm, not_lt]
      exact ⟨le_of_lt, fun hle => lt_of_le_of_ne hle (Ne.symm hne)⟩
    · rw [mask_length, mask_length] at hlen
      exact (better_iff hS hone h hm hn).mpr (mask_lt_of_length (hS n hn) hlen)

/-! ## Lists of masks -/

theorem toNat_le_of_and {a b : BitVec 8} (h : a &&& ~~~b = 0) : a.toNat ≤ b.toNat := by
  have hand : a &&& b = a := by
    refine BitVec.eq_of_getLsbD_eq fun i hi => ?_
    have hbit := congrArg (fun x => x.getLsbD i) h
    simp only [BitVec.getLsbD_and, BitVec.getLsbD_not, hi, decide_true, Bool.true_and] at hbit
    rw [BitVec.getLsbD_and]
    revert hbit
    cases a.getLsbD i <;> cases b.getLsbD i <;> simp
  rw [← hand, BitVec.toNat_and]
  exact Nat.and_le_right

/-- A mask that refines another is above it. -/
theorem mask_lt_of_refines (hm : Normalized mem m) (hn : Normalized mem n)
    (h : rnRefines mem m n = true) : mask mem n < mask mem m := by
  rcases Nat.lt_trichotomy (mem n).toNat (mem m).toNat with hlt | heq | hgt
  · exact mask_lt_of_length hn hlt
  · have heq : mem m = mem n := BitVec.eq_of_toNat_eq heq.symm
    rw [mask_lt_iff heq]
    unfold rnRefines at h
    simp only [heq, Nat.min_self] at h
    split at h
    · cases h
    rename_i hbits
    split at h
    · cases h
    have hnone : (List.range' (max 1 (mem n).toNat) ((mem n).toNat - max 1 (mem n).toNat)) = [] := by
      rw [Nat.sub_eq_zero_of_le (Nat.le_max_right ..)]
      rfl
    rw [hnone, List.any_nil, Bool.and_false, if_neg Bool.false_ne_true, Bool.not_eq_true',
      List.all_eq_false] at h
    obtain ⟨j, hj, hne⟩ := h
    -- the first byte that is not the same
    have hex : ∃ i, mem (m + i) ≠ mem (n + i) := ⟨j, fun he => hne (by rw [he]; exact beq_self_eq_true _)⟩
    have hfirst := Nat.find_spec hex
    have hle := Nat.find_min' hex (fun he => hne (by rw [he]; exact beq_self_eq_true _))
    have hsame : ∀ i < Nat.find hex, mem (m + i) = mem (n + i) := fun i hi =>
      not_not.mp (Nat.find_min hex hi)
    have hpos : Nat.find hex ≠ 0 := fun h0 => hfirst (by rw [h0]; exact heq)
    rw [List.mem_range'_1] at hj
    have hin : Nat.find hex ∈ List.range' 1 ((mem n).toNat - 1) := by
      rw [List.mem_range'_1]
      omega
    have hand : mem (n + Nat.find hex) &&& ~~~mem (m + Nat.find hex) = 0 := by
      by_contra hno
      exact hbits (List.any_eq_true.mpr ⟨_, hin, bne_iff_ne.mpr hno⟩)
    have hne' : (mem (n + Nat.find hex)).toNat ≠ (mem (m + Nat.find hex)).toNat := fun he =>
      hfirst (BitVec.eq_of_toNat_eq he.symm)
    exact ⟨_, by omega, hsame, lt_of_le_of_ne (toNat_le_of_and hand) hne'⟩
  · -- the rest of the longer mask is not 0
    unfold rnRefines at h
    dsimp only at h
    rw [Nat.min_eq_right (Nat.le_of_lt hgt)] at h
    have hpos := hm.1
    have hlast : ((mem n).toNat - 1) ∈
        List.range' (max 1 (mem m).toNat) ((mem n).toNat - max 1 (mem m).toNat) := by
      rw [List.mem_range'_1]
      omega
    have hany : (List.range' (max 1 (mem m).toNat) ((mem n).toNat - max 1 (mem m).toNat)).any
        (fun i => mem (n + i) != 0) = true := List.any_eq_true.mpr ⟨_, hlast, bne_iff_ne.mpr hn.2⟩
    rw [if_pos hany, ite_self] at h
    cases h

theorem insertMask_eq (hS : ∀ p ∈ S, Normalized mem p)
    (hone : ∀ m ∈ S, ∀ n ∈ S, mask mem m = mask mem n → m = n) (h : Reached mem S) (hm : m ∈ S) :
    ∀ {l : List Nat}, (∀ p ∈ l, p ∈ S) → m ∉ l →
      insertMask mem m l = l.orderedInsert (fun a b => mask mem b ≤ mask mem a) m := by
  intro l
  induction l with
  | nil => exact fun _ _ => rfl
  | cons t rest ih =>
      intro hl hnot
      have ht := hl t List.mem_cons_self
      have hne : t ≠ m := fun he => hnot (he ▸ List.mem_cons_self)
      have hiff : (rnRefines mem m t || rnLexobetter mem m t) = true ↔ mask mem t ≤ mask mem m := by
        rw [Bool.or_eq_true, better_iff hS hone h hm ht]
        constructor
        · exact fun h => le_of_lt (h.elim (mask_lt_of_refines (hS m hm) (hS t ht)) id)
        · exact fun hle => .inr (lt_of_le_of_ne hle fun he => hne (hone t ht m hm he))
      rw [insertMask, if_neg hne, List.orderedInsert_cons]
      by_cases hle : mask mem t ≤ mask mem m
      · rw [if_pos (hiff.mpr hle), if_pos hle]
      · rw [if_neg (mt hiff.mp hle), if_neg hle,
          ih (fun p hp => hl p (List.mem_cons_of_mem _ hp)) fun hin => hnot (List.mem_cons_of_mem _ hin)]

/-- Masks put in one after the other are sorted. -/
theorem foldr_insertMask (hS : ∀ p ∈ S, Normalized mem p)
    (hone : ∀ m ∈ S, ∀ n ∈ S, mask mem m = mask mem n → m = n) (h : Reached mem S) {l : List Nat}
    (hl : ∀ p ∈ l, p ∈ S) (hnd : l.Nodup) :
    l.foldr (insertMask mem) [] = l.insertionSort fun a b => mask mem b ≤ mask mem a := by
  induction l with
  | nil => rfl
  | cons m l ih =>
      obtain ⟨hm, hnd⟩ := List.nodup_cons.mp hnd
      have hl' : ∀ p ∈ l, p ∈ S := fun p hp => hl p (List.mem_cons_of_mem _ hp)
      rw [List.foldr_cons, ih hl' hnd, List.insertionSort_cons]
      refine insertMask_eq hS hone h (hl m List.mem_cons_self) (fun p hp => hl' p ?_) fun hin => hm ?_
      · exact (List.mem_insertionSort _).mp hp
      · exact (List.mem_insertionSort _).mp hin

end Places

/-- Masks of two and of three bytes. -/
def unequalMasks : Nat → BitVec 8
  | 0 => 2
  | 1 => 0xff
  | 8 => 3
  | 9 => 0x0f
  | 10 => 0xf0
  | _ => 0

/-- Two masks of three bytes each, and what `rn_addmask` leaves behind a mask: 0. -/
def twoMasks : Nat → BitVec 8
  | 0 => 3
  | 1 => 0xf0
  | 2 => 0x0f
  | 8 => 3
  | 9 => 0x0f
  | 10 => 0xf0
  | _ => 0

end Obsd.Radix
