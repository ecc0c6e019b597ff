import Obsd.Dirhash

/-!
# The free space of the blocks of a hashed directory

`dh_firstfree` has, for each class of free space, the first block in it.
`IsFirst` says that of one class, and how it changes when a block enters or
leaves the class; a change of a block's free space is one of each. From
that `ufsdirhash_findfree` finds a block with enough room whenever there is
one, and the two loops over its entries find the room.
-/

namespace Obsd.Ufs

/-! ## First blocks -/

/-- `v` is the first of the blocks with `p`, or -1. -/
def IsFirst (p : Nat → Prop) (v : Int) : Prop := (v = -1 ∧ ∀ b, ¬ p b) ∨ ∃ b : Nat, v = b ∧ p b ∧ ∀ c < b, ¬ p c

namespace IsFirst

variable {p q : Nat → Prop} {v : Int} {c : Nat}

theorem congr (h : IsFirst p v) (hpq : ∀ b, p b ↔ q b) : IsFirst q v := by
  obtain rfl : p = q := funext fun b => propext (hpq b)
  exact h

/-- A block joins those with `p`. -/
theorem add (h : IsFirst p v) (hc : ¬ p c) :
    IsFirst (fun b => p b ∨ b = c) (if v > c ∨ v = -1 then (c : Int) else v) := by
  rcases h with ⟨rfl, hno⟩ | ⟨b, rfl, hb, hmin⟩
  · exact .inr ⟨c, rfl, .inr rfl, fun d hd hor => hor.elim (hno d) (Nat.ne_of_lt hd)⟩
  · by_cases hlt : c < b
    · rw [if_pos (.inl (Int.ofNat_lt.mpr hlt))]
      exact .inr ⟨c, rfl, .inr rfl, fun d hd hor => hor.elim (hmin d (by omega)) (Nat.ne_of_lt hd)⟩
    · rw [if_neg (by omega)]
      exact .inr ⟨b, rfl, .inl hb, fun d hd hor => hor.elim (hmin d hd) (by omega)⟩

/-- A block that is not the first leaves. -/
theorem leave (h : IsFirst p v) (hc : p c) (hv : v ≠ c) : IsFirst (fun b => p b ∧ b ≠ c) v := by
  rcases h with ⟨rfl, hno⟩ | ⟨b, rfl, hb, hmin⟩
  · exact absurd hc (hno c)
  · exact .inr ⟨b, rfl, ⟨hb, fun he => hv (he ▸ rfl)⟩, fun d hd hp => hmin d hd hp.1⟩

/-- The first block leaves; `r` is the next. -/
theorem leave_first {n r : Nat} (h : IsFirst p c) (hlt : ∀ b, p b → b < n)
    (hgap : ∀ b, c < b → b < r → ¬ p b) (hr : r < n → c < r ∧ p r) :
    IsFirst (fun b => p b ∧ b ≠ c) (if r < n then (r : Int) else -1) := by
  have hmin : ∀ b < c, ¬ p b := by
    rcases h with ⟨hbad, -⟩ | ⟨b, hb, -, hmin⟩
    · omega
    · obtain rfl : c = b := by omega
      exact hmin
  by_cases hrn : r < n
  · obtain ⟨hcr, hp⟩ := hr hrn
    rw [if_pos hrn]
    refine .inr ⟨r, rfl, ⟨hp, by omega⟩, fun b hb hpb => ?_⟩
    by_cases hbc : b < c
    · exact hmin b hbc hpb.1
    · exact hgap b (by omega) hb hpb.1
  · rw [if_neg hrn]
    refine .inl ⟨rfl, fun b hpb => ?_⟩
    have hbn := hlt b hpb.1
    by_cases hbc : b < c
    · exact hmin b hbc hpb.1
    · exact hgap b (by omega) (by omega) hpb.1

/-- Only the blocks below `n` stay. -/
theorem below (n : Nat) (h : IsFirst p v) :
    IsFirst (fun b => p b ∧ b < n) (if v ≥ n then -1 else v) := by
  rcases h with ⟨rfl, hno⟩ | ⟨b, rfl, hb, hmin⟩
  · rw [if_neg (by omega)]
    exact .inl ⟨rfl, fun d hp => hno d hp.1⟩
  · by_cases hbn : (b : Int) ≥ n
    · rw [if_pos hbn]
      refine .inl ⟨rfl, fun d hp => ?_⟩
      by_cases hdb : d < b
      · exact hmin d hdb hp.1
      · omega
    · rw [if_neg hbn]
      exact .inr ⟨b, rfl, ⟨hb, by omega⟩, fun d hd hp => hmin d hd hp.1⟩

end IsFirst

theorem scanClass_spec (blkfree : Nat → Nat) (idx n : Nat) : ∀ i,
    i ≤ scanClass blkfree idx n i ∧ scanClass blkfree idx n i ≤ i + n
      ∧ (∀ j, i ≤ j → j < scanClass blkfree idx n i → blkfree2idx (blkfree j) ≠ idx)
      ∧ (scanClass blkfree idx n i < i + n → blkfree2idx (blkfree (scanClass blkfree idx n i)) = idx) := by
  induction n with
  | zero =>
    intro i
    exact ⟨le_rfl, le_rfl, fun j hj hj' => by rw [scanClass] at hj'; omega,
      fun h => by rw [scanClass] at h; omega⟩
  | succ n ih =>
    intro i
    rw [scanClass]
    by_cases hi : blkfree2idx (blkfree i) = idx
    · rw [if_pos hi]
      exact ⟨le_rfl, by omega, fun j hj hj' => by omega, fun _ => hi⟩
    · rw [if_neg hi]
      obtain ⟨hle, hge, hgap, hhit⟩ := ih (i + 1)
      refine ⟨by omega, by omega, fun j hj hj' => ?_, fun h => hhit (by omega)⟩
      by_cases hji : j = i
      · rw [hji]
        exact hi
      · exact hgap j (by omega) hj'

/-! ## Classes -/

/-- Every class knows its first block. -/
def Classes (dirblks : Nat) (blkfree : Nat → Nat) (firstfree : Nat → Int) : Prop :=
  ∀ i ≤ dhNfstats, IsFirst (fun b => b < dirblks ∧ blkfree2idx (blkfree b) = i) (firstfree i)

theorem blkfree2idx_le (n : Nat) : blkfree2idx n ≤ dhNfstats := by
  unfold blkfree2idx
  split <;> omega

/-- A block changes class. -/
theorem Classes.change {dirblks : Nat} {blkfree : Nat → Nat} {firstfree firstfree' : Nat → Int} {block free : Nat}
    (h : Classes dirblks blkfree firstfree) (hb : block < dirblks)
    (hne : blkfree2idx (blkfree block) ≠ blkfree2idx free)
    (hfirst : firstfree' =
      if firstfree (blkfree2idx (blkfree block)) = block then
        Function.update firstfree (blkfree2idx (blkfree block))
          (if scanClass (Function.update blkfree block free) (blkfree2idx (blkfree block)) (dirblks - (block + 1))
              (block + 1) < dirblks then
            (scanClass (Function.update blkfree block free) (blkfree2idx (blkfree block)) (dirblks - (block + 1))
              (block + 1) : Int)
          else -1)
      else firstfree) :
    Classes dirblks (Function.update blkfree block free)
      (if firstfree' (blkfree2idx free) > block ∨ firstfree' (blkfree2idx free) = -1 then
        Function.update firstfree' (blkfree2idx free) (block : Int)
      else firstfree') := by
  set ofidx := blkfree2idx (blkfree block) with hof
  set nfidx := blkfree2idx free with hnf
  -- which blocks are in a class afterwards
  have hcls : ∀ b i, (b < dirblks ∧ blkfree2idx (Function.update blkfree block free b) = i)
      ↔ (b < dirblks ∧ blkfree2idx (blkfree b) = i ∧ b ≠ block) ∨ (b = block ∧ nfidx = i) := by
    intro b i
    by_cases hbb : b = block
    · subst hbb
      simp [hb, ← hnf]
    · simp [hbb]
  have hother : ∀ i, i ≠ ofidx → firstfree' i = firstfree i := by
    intro i hi
    rw [hfirst]
    split
    · exact Function.update_of_ne hi ..
    · rfl
  have hleft : IsFirst (fun b => (b < dirblks ∧ blkfree2idx (blkfree b) = ofidx) ∧ b ≠ block) (firstfree' ofidx) := by
    have hold := h ofidx (blkfree2idx_le _)
    rw [hfirst]
    by_cases hfb : firstfree ofidx = block
    · rw [if_pos hfb, Function.update_self]
      rw [hfb] at hold
      obtain ⟨hle, hge, hgap, hhit⟩ := scanClass_spec (Function.update blkfree block free) ofidx
        (dirblks - (block + 1)) (block + 1)
      have hkeep : ∀ j, block < j → Function.update blkfree block free j = blkfree j :=
        fun j hj => Function.update_of_ne (by omega) ..
      refine hold.leave_first (fun b hp => hp.1) (fun j hj hjr hp => ?_) fun hr => ⟨by omega, hr, ?_⟩
      · exact hgap j (by omega) hjr (by rw [hkeep j hj]; exact hp.2)
      · rw [← hkeep _ (by omega)]
        exact hhit (by omega)
    · rw [if_neg hfb]
      exact hold.leave ⟨hb, rfl⟩ hfb
  intro i hi
  by_cases hin : i = nfidx
  · have hnew := (h nfidx (blkfree2idx_le _)).add (c := block) fun hp => hne hp.2
    rw [← hother nfidx (Ne.symm hne)] at hnew
    subst hin
    have hval : (if firstfree' nfidx > block ∨ firstfree' nfidx = -1 then
        Function.update firstfree' nfidx (block : Int) else firstfree') nfidx
        = if firstfree' nfidx > block ∨ firstfree' nfidx = -1 then (block : Int) else firstfree' nfidx := by
      split
      · exact Function.update_self ..
      · rfl
    rw [hval]
    refine hnew.congr fun b => ?_
    rw [hcls]
    constructor
    · rintro (⟨h1, h2⟩ | rfl)
      · exact .inl ⟨h1, h2, fun hbb => hne (by rw [← h2, hbb])⟩
      · exact .inr ⟨rfl, rfl⟩
    · rintro (⟨h1, h2, -⟩ | ⟨rfl, -⟩)
      · exact .inl ⟨h1, h2⟩
      · exact .inr rfl
  · have hval : (if firstfree' nfidx > block ∨ firstfree' nfidx = -1 then
        Function.update firstfree' nfidx (block : Int) else firstfree') i = firstfree' i := by
      split
      · exact Function.update_of_ne hin ..
      · rfl
    rw [hval]
    by_cases hio : i = ofidx
    · rw [hio]
      refine hleft.congr fun b => ?_
      rw [hcls]
      constructor
      · rintro ⟨⟨h1, h2⟩, h3⟩
        exact .inl ⟨h1, h2, h3⟩
      · rintro (⟨h1, h2, h3⟩ | ⟨-, h3⟩)
        · exact ⟨⟨h1, h2⟩, h3⟩
        · exact absurd h3 (Ne.symm hne)
    · rw [hother i hio]
      refine (h i hi).congr fun b => ?_
      rw [hcls]
      constructor
      · rintro ⟨h1, h2⟩
        exact .inl ⟨h1, h2, fun hbb => hio (by rw [← h2, hbb])⟩
      · rintro (⟨h1, h2, -⟩ | ⟨-, h3⟩)
        · exact ⟨h1, h2⟩
        · exact absurd h3.symm hin

/-- A block's free space changes, whether its class does or not. -/
theorem adjfree_spec {dh : Dirhash} {offset : Nat} (free : Nat) (diff : Int)
    (hcls : Classes dh.dhDirblks dh.dhBlkfree dh.dhFirstfree) (hblk : offset / dirblksiz < dh.dhDirblks)
    (hn : dh.dhDirblks ≤ dh.dhNblk)
    (hfree : (dh.dhBlkfree (offset / dirblksiz) : Int) + diff.tdiv diralign = free) (hbyte : free < 256) :
    ∃ firstfree, ufsdirhashAdjfree dh offset diff
        = .ok { dh with
            dhBlkfree := Function.update dh.dhBlkfree (offset / dirblksiz) free, dhFirstfree := firstfree }
      ∧ Classes dh.dhDirblks (Function.update dh.dhBlkfree (offset / dirblksiz) free) firstfree := by
  have hval : (((dh.dhBlkfree (offset / dirblksiz) : Int) + diff.tdiv diralign) % 256).toNat = free := by
    omega
  unfold ufsdirhashAdjfree
  simp only [hval, if_pos (And.intro (Nat.lt_of_lt_of_le hblk hn) hblk)]
  by_cases hsame : blkfree2idx (dh.dhBlkfree (offset / dirblksiz)) = blkfree2idx free
  · refine ⟨dh.dhFirstfree, by rw [if_neg (not_not_intro hsame)], fun i hi => ?_⟩
    refine (hcls i hi).congr fun b => ?_
    by_cases hb : b = offset / dirblksiz
    · rw [hb, Function.update_self, hsame]
    · rw [Function.update_of_ne hb]
  · exact ⟨_, by rw [if_pos hsame], hcls.change hblk hsame rfl⟩

/-! ## The free space of every block -/

/-- The statistics are those of a directory of `blks` blocks with the entries `ents`. -/
structure FreeOk (dh : Dirhash) (blks : Nat) (ents : List Ent) : Prop where
  dirblks : dh.dhDirblks = blks
  nblk : blks ≤ dh.dhNblk
  free : ∀ b < blks, dh.dhBlkfree b * diralign + usedIn ents b = dirblksiz
  classes : Classes blks dh.dhBlkfree dh.dhFirstfree

variable {dh : Dirhash} {m : DirMem} {blks o : Nat} {ents ents' : List Ent} {name : Name}

theorem FreeOk.perm (h : FreeOk dh blks ents) (hp : ents.Perm ents') : FreeOk dh blks ents' :=
  ⟨h.dirblks, h.nblk, fun b hb => by rw [← usedIn_perm hp]; exact h.free b hb, h.classes⟩

/-- The same hash but for the free space. -/
def SameTable (dh dh' : Dirhash) : Prop :=
  ∃ blkfree firstfree, dh' = { dh with dhBlkfree := blkfree, dhFirstfree := firstfree }

/-- The table has nothing to do with it. -/
theorem FreeOk.table (h : FreeOk dh blks ents) (hash : Nat → Slot Nat) (hused : Int) :
    FreeOk { dh with dhHash := hash, dhHused := hused } blks ents :=
  ⟨h.dirblks, h.nblk, h.free, h.classes⟩

/-- One block's entries change, and its free space by as much. -/
theorem FreeOk.adjfree (h : FreeOk dh blks ents) (hblk : o / dirblksiz < blks) {diff : Int}
    (hother : ∀ b, b ≠ o / dirblksiz → usedIn ents' b = usedIn ents b)
    (hdiff : (usedIn ents (o / dirblksiz) : Int) = usedIn ents' (o / dirblksiz) + diff)
    (h4 : (diralign : Int) ∣ diff) (hfits : usedIn ents' (o / dirblksiz) ≤ dirblksiz) :
    ∃ dh', ufsdirhashAdjfree dh o diff = .ok dh' ∧ SameTable dh dh' ∧ FreeOk dh' blks ents' := by
  obtain ⟨k, rfl⟩ := h4
  have hnow := h.free (o / dirblksiz) hblk
  have hk : ((diralign : Int) * k).tdiv diralign = k := Int.mul_tdiv_cancel_left k (by decide)
  have hsum : ((dh.dhBlkfree (o / dirblksiz) : Int) + k).toNat * diralign + usedIn ents' (o / dirblksiz)
      = dirblksiz := by
    unfold diralign dirblksiz at *
    omega
  have hnn : 0 ≤ (dh.dhBlkfree (o / dirblksiz) : Int) + k := by
    unfold diralign dirblksiz at *
    omega
  have hcls := h.classes
  rw [← h.dirblks] at hcls hblk
  obtain ⟨ff, heq, hff⟩ := adjfree_spec ((dh.dhBlkfree (o / dirblksiz) : Int) + k).toNat (diralign * k) hcls hblk
    (by rw [h.dirblks]; exact h.nblk) (by rw [hk, Int.toNat_of_nonneg hnn])
    (by unfold diralign dirblksiz at *; omega)
  refine ⟨_, heq, ⟨_, ff, rfl⟩, h.dirblks, h.nblk, fun b hb => ?_, by rw [← h.dirblks]; exact hff⟩
  by_cases hbo : b = o / dirblksiz
  · subst hbo
    simp only [Function.update_self]
    exact hsum
  · simp only [Function.update_of_ne hbo]
    rw [hother b hbo]
    exact h.free b hb

theorem FreeOk.add (h : FreeOk dh blks ents) (hblk : o / dirblksiz < blks)
    (hfits : usedIn ((o, name) :: ents) (o / dirblksiz) ≤ dirblksiz) :
    ∃ dh', ufsdirhashAdjfree dh o (-(dirsiz name.length : Int)) = .ok dh' ∧ SameTable dh dh'
      ∧ FreeOk dh' blks ((o, name) :: ents) := by
  refine h.adjfree hblk (fun b hb => ?_) ?_ ?_ hfits
  · rw [usedIn_cons, if_neg (Ne.symm hb), Nat.zero_add]
  · rw [usedIn_cons, if_pos rfl]
    dsimp only
    omega
  · exact Int.dvd_neg.mpr (Int.natCast_dvd_natCast.mpr (dvd_dirsiz _))

theorem usedIn_erase (hmem : (o, name) ∈ ents) (b : Nat) :
    usedIn ents b = (if o / dirblksiz = b then dirsiz name.length else 0) + usedIn (ents.erase (o, name)) b := by
  rw [usedIn_perm (List.perm_cons_erase hmem), usedIn_cons]

theorem FreeOk.remove (h : FreeOk dh blks ents) (hblk : o / dirblksiz < blks) (hmem : (o, name) ∈ ents) :
    ∃ dh', ufsdirhashAdjfree dh o (dirsiz name.length) = .ok dh' ∧ SameTable dh dh'
      ∧ FreeOk dh' blks (ents.erase (o, name)) := by
  have hused := usedIn_erase hmem
  refine h.adjfree hblk (fun b hb => ?_) ?_ ?_ ?_
  · rw [hused b, if_neg (Ne.symm hb), Nat.zero_add]
  · rw [hused, if_pos rfl]
    omega
  · exact Int.natCast_dvd_natCast.mpr (dvd_dirsiz _)
  · have hnow := h.free _ hblk
    have hle := hused (o / dirblksiz)
    omega

/-- A move within a block changes nothing here. -/
theorem FreeOk.move {newoff : Nat} (h : FreeOk dh blks ents) (hmem : (o, name) ∈ ents)
    (hsame : newoff / dirblksiz = o / dirblksiz) : FreeOk dh blks ((newoff, name) :: ents.erase (o, name)) := by
  refine ⟨h.dirblks, h.nblk, fun b hb => ?_, h.classes⟩
  have hnow := h.free b hb
  rw [usedIn_erase hmem] at hnow
  rw [usedIn_cons, hsame]
  exact hnow

theorem FreeOk.newblk (h : FreeOk dh blks ents) (hn : blks < dh.dhNblk) (hlt : ∀ e ∈ ents, e.1 / dirblksiz < blks) :
    FreeOk { dh with
      dhDirblks := blks + 1
      dhBlkfree := Function.update dh.dhBlkfree blks (dirblksiz / diralign)
      dhFirstfree :=
        if dh.dhFirstfree dhNfstats = -1 then Function.update dh.dhFirstfree dhNfstats (blks : Int)
        else dh.dhFirstfree } (blks + 1) ents := by
  have hold : ∀ b < blks, Function.update dh.dhBlkfree blks (dirblksiz / diralign) b = dh.dhBlkfree b :=
    fun b hb => Function.update_of_ne (Nat.ne_of_lt hb) ..
  refine ⟨rfl, hn, fun b hb => ?_, fun i hi => ?_⟩
  · by_cases hbb : b = blks
    · subst hbb
      have hzero : usedIn ents b = 0 := usedIn_eq_zero fun e he => Nat.ne_of_lt (hlt e he)
      simp only [Function.update_self, hzero]
      rfl
    · simp only [hold b (by omega)]
      exact h.free b (by omega)
  · have hcls : ∀ b, (b < blks + 1
          ∧ blkfree2idx (Function.update dh.dhBlkfree blks (dirblksiz / diralign) b) = i)
        ↔ (b < blks ∧ blkfree2idx (dh.dhBlkfree b) = i) ∨ (b = blks ∧ i = dhNfstats) := by
      intro b
      by_cases hbb : b = blks
      · subst hbb
        have hidx : blkfree2idx (dirblksiz / diralign) = dhNfstats := rfl
        rw [Function.update_self, hidx]
        simp [eq_comm]
      · by_cases hlt : b < blks
        · simp [hlt, hbb, Nat.lt_succ_of_lt hlt]
        · simp [hlt, hbb, show ¬ b < blks + 1 by omega]
    have hnow := h.classes i hi
    simp only
    by_cases hlast : i = dhNfstats
    · subst hlast
      have hadd := hnow.add (c := blks) fun hp => Nat.lt_irrefl _ hp.1
      have hbig : ¬ dh.dhFirstfree dhNfstats > blks := by
        rcases hnow with ⟨hv, -⟩ | ⟨b, hv, ⟨hb, -⟩, -⟩
        · omega
        · omega
      have hval : (if dh.dhFirstfree dhNfstats = -1 then Function.update dh.dhFirstfree dhNfstats (blks : Int)
            else dh.dhFirstfree) dhNfstats
          = if dh.dhFirstfree dhNfstats > blks ∨ dh.dhFirstfree dhNfstats = -1 then (blks : Int)
            else dh.dhFirstfree dhNfstats := by
        simp only [hbig, false_or]
        split
        · exact Function.update_self ..
        · rfl
      rw [hval]
      refine hadd.congr fun b => ?_
      rw [hcls]
      simp
    · have hval : (if dh.dhFirstfree dhNfstats = -1 then Function.update dh.dhFirstfree dhNfstats (blks : Int)
            else dh.dhFirstfree) i = dh.dhFirstfree i := by
        split
        · exact Function.update_of_ne hlast ..
        · rfl
      rw [hval]
      refine hnow.congr fun b => ?_
      rw [hcls]
      simp [hlast]

/-- Blocks without entries are all free. -/
theorem FreeOk.blkfree_unused (h : FreeOk dh blks ents) {n b : Nat} (hlt : ∀ e ∈ ents, e.1 / dirblksiz < n)
    (hnb : n ≤ b) (hb : b < blks) : dh.dhBlkfree b = dirblksiz / diralign := by
  have hzero : usedIn ents b = 0 := usedIn_eq_zero fun e he => Nat.ne_of_lt (Nat.lt_of_lt_of_le (hlt e he) hnb)
  have hfree := h.free b hb
  unfold diralign dirblksiz at *
  omega

/-- The blocks from `n` on are cut off; none of the panics is for a directory
that has no entries there. -/
theorem FreeOk.dirtrunc (h : FreeOk dh blks ents) {n : Nat} (hn : n ≤ blks) (hlt : ∀ e ∈ ents, e.1 / dirblksiz < n)
    {firstfree : Nat → Int}
    (hff : firstfree = if dh.dhFirstfree dhNfstats ≥ n then Function.update dh.dhFirstfree dhNfstats (-1)
      else dh.dhFirstfree) :
    (¬ ∃ i < dh.dhDirblks, n ≤ i ∧ dh.dhBlkfree i ≠ dirblksiz / diralign)
      ∧ (¬ ∃ i < dhNfstats, firstfree i ≥ n)
      ∧ FreeOk { dh with dhFirstfree := firstfree, dhDirblks := n } n ents := by
  have hsmall : ∀ i < dhNfstats, ∀ b, b < blks ∧ blkfree2idx (dh.dhBlkfree b) = i → b < n := by
    intro i hi b hp
    by_contra hbn
    rw [h.blkfree_unused hlt (Nat.le_of_not_lt hbn) hp.1] at hp
    exact Nat.ne_of_gt hi hp.2
  have hkeep : ∀ i < dhNfstats, firstfree i = dh.dhFirstfree i := by
    intro i hi
    rw [hff]
    split
    · exact Function.update_of_ne (Nat.ne_of_lt hi) ..
    · rfl
  refine ⟨?_, ?_, rfl, Nat.le_trans hn h.nblk, fun b hb => h.free b (by omega), fun i hi => ?_⟩
  · rintro ⟨i, hi, hni, hne⟩
    rw [h.dirblks] at hi
    exact hne (h.blkfree_unused hlt hni hi)
  · rintro ⟨i, hi, hge⟩
    rw [hkeep i hi] at hge
    rcases h.classes i (Nat.le_of_lt hi) with ⟨hv, -⟩ | ⟨b, hv, hp, -⟩
    · omega
    · have hbn := hsmall i hi b hp
      omega
  · have hbelow := (h.classes i hi).below n
    have hcls : ∀ b, (b < blks ∧ blkfree2idx (dh.dhBlkfree b) = i) ∧ b < n
        ↔ b < n ∧ blkfree2idx (dh.dhBlkfree b) = i := by
      intro b
      constructor
      · rintro ⟨⟨-, h2⟩, h3⟩
        exact ⟨h3, h2⟩
      · rintro ⟨h3, h2⟩
        exact ⟨⟨Nat.lt_of_lt_of_le h3 hn, h2⟩, h3⟩
    have hval : (if dh.dhFirstfree i ≥ n then -1 else dh.dhFirstfree i) = firstfree i := by
      by_cases hlast : i = dhNfstats
      · subst hlast
        rw [hff]
        split
        · rw [Function.update_self]
        · rfl
      · have hi' : i < dhNfstats := by omega
        rw [hkeep i hi', if_neg]
        rcases h.classes i hi with ⟨hv, -⟩ | ⟨b, hv, hp, -⟩
        · omega
        · have hbn := hsmall i hi' b hp
          omega
    rw [hval] at hbelow
    exact hbelow.congr hcls

theorem freeOk_new (env : BuildEnv) (narrays : Nat) {nblocks dirblocks : Nat} (hpos : 0 < dirblocks)
    (hle : dirblocks ≤ nblocks) : FreeOk (newDirhash env narrays nblocks dirblocks) dirblocks [] := by
  refine ⟨rfl, hle, fun b hb => ?_, fun i hi => ?_⟩
  · simp only [newDirhash, if_pos hb]
    rfl
  · have hidx : blkfree2idx (dirblksiz / diralign) = dhNfstats := rfl
    by_cases hlast : i = dhNfstats
    · refine .inr ⟨0, by simp [newDirhash, hlast], ⟨hpos, ?_⟩, fun c hc => absurd hc (Nat.not_lt_zero c)⟩
      simp only [newDirhash, if_pos hpos]
      rw [hidx, hlast]
    · refine .inl ⟨by simp [newDirhash, hlast], fun b hp => ?_⟩
      obtain ⟨hb, hcls⟩ := hp
      simp only [newDirhash, if_pos hb] at hcls
      exact hlast (hcls.symm.trans hidx)

/-! ## Finding a block -/

theorem firstClass_spec (firstfree : Nat → Int) (n : Nat) : ∀ i,
    (firstClass firstfree n i = -1 ∧ ∀ j, i ≤ j → j < i + n → firstfree j = -1)
    ∨ ∃ j, i ≤ j ∧ j < i + n ∧ firstfree j ≠ -1 ∧ firstClass firstfree n i = firstfree j := by
  induction n with
  | zero =>
    intro i
    exact .inl ⟨rfl, fun j hj hj' => by omega⟩
  | succ n ih =>
    intro i
    rw [firstClass]
    by_cases hi : firstfree i = -1
    · rw [if_neg (not_not_intro hi)]
      rcases ih (i + 1) with ⟨heq, hall⟩ | ⟨j, hij, hjn, hne, heq⟩
      · refine .inl ⟨heq, fun j hj hj' => ?_⟩
        by_cases hji : j = i
        · rw [hji]
          exact hi
        · exact hall j (by omega) (by omega)
      · exact .inr ⟨j, by omega, by omega, hne, heq⟩
    · rw [if_pos hi]
      exact .inr ⟨i, le_rfl, by omega, hi, rfl⟩

theorem howmany_diralign (n : Nat) : n ≤ howmany n diralign * diralign ∧ howmany n diralign * diralign < n + 4 := by
  unfold howmany diralign
  omega

/-- The classes are searched for a block with enough words: either no block has
them, or the one found does. -/
theorem FreeOk.firstClass (h : FreeOk dh blks ents) {words : Nat} (hw : words ≤ dhNfstats) :
    (Ufs.firstClass dh.dhFirstfree (dhNfstats + 1 - words) words = -1 ∧ ∀ b < blks, dh.dhBlkfree b < words)
    ∨ ∃ b < blks, Ufs.firstClass dh.dhFirstfree (dhNfstats + 1 - words) words = b ∧ words ≤ dh.dhBlkfree b := by
  rcases firstClass_spec dh.dhFirstfree (dhNfstats + 1 - words) words with ⟨heq, hall⟩ | ⟨j, hwj, hjn, hne, heq⟩
  · refine .inl ⟨heq, fun b hb => ?_⟩
    by_contra hge
    have hidx : words ≤ blkfree2idx (dh.dhBlkfree b) := by
      unfold blkfree2idx
      split <;> omega
    have hle := blkfree2idx_le (dh.dhBlkfree b)
    have hno := hall _ hidx (by omega)
    rcases h.classes _ hle with ⟨-, hnone⟩ | ⟨c, hv, -, -⟩
    · exact hnone b ⟨hb, rfl⟩
    · omega
  · rcases h.classes j (by omega) with ⟨hv, -⟩ | ⟨b, hv, ⟨hb, hcls⟩, -⟩
    · exact absurd hv hne
    · refine .inr ⟨b, hb, heq.trans hv, ?_⟩
      have hle : blkfree2idx (dh.dhBlkfree b) ≤ dh.dhBlkfree b := by
        unfold blkfree2idx
        split <;> omega
      omega

/-! ## Finding the room in it -/

/-- A part of a block: the entries from `off` on that span `cnt` bytes. -/
def Region (fmt : Bool) (m : DirMem) (b off cnt : Nat) (mid : List Nat) : Prop :=
  ∃ pre post, blockOffs m b = pre ++ mid ++ post ∧ Tiles fmt m off (off + cnt) mid

theorem nfree_append (fmt : Bool) (m : DirMem) (os os' : List Nat) :
    nfree fmt m (os ++ os') = nfree fmt m os + nfree fmt m os' := by
  rw [nfree, List.map_append, List.sum_append]
  rfl

theorem nfree_cons (fmt : Bool) (m : DirMem) (o : Nat) (os : List Nat) : nfree fmt m (o :: os)
    = (if dIno m o = 0 then dReclen m o else dReclen m o - dirsiz (dNamlen fmt m o)) + nfree fmt m os := by
  rfl

/-- Entries without free space are passed over. -/
theorem skipFull_spec {pos : Nat} {os : List Nat} : ∀ i fuel, Tiles false m (pos + i) (pos + dirblksiz) os →
    dirblksiz - i < fuel → ∃ pre post i', skipFull m pos fuel i = some i' ∧ os = pre ++ post
      ∧ Tiles false m (pos + i') (pos + dirblksiz) post ∧ nfree false m pre = 0
      ∧ i' ≤ dirblksiz := by
  induction os with
  | nil =>
    intro i fuel h hf
    have hi : i = dirblksiz := Nat.add_left_cancel h
    cases fuel with
    | zero => omega
    | succ fuel => exact ⟨[], [], i, by rw [skipFull, if_neg (by omega)], rfl, h, rfl, by omega⟩
  | cons p os ih =>
    intro i fuel h hf
    have hall := h
    have hrec := h.reclen_pos (List.mem_cons_self ..)
    obtain ⟨rfl, h4, hsiz, hrest⟩ := h
    have hle := hrest.le
    cases fuel with
    | zero => omega
    | succ fuel =>
      rw [skipFull, if_pos (by omega), if_neg (Nat.ne_of_gt hrec)]
      by_cases hroom : dIno m (pos + i) = 0 ∨ dReclen m (pos + i) > dirsiz (dNamlen false m (pos + i))
      · exact ⟨[], _, i, by rw [if_pos hroom], rfl, hall, rfl, by omega⟩
      · rw [if_neg hroom]
        rw [Nat.add_assoc] at hrest
        obtain ⟨pre, post, i', heq, rfl, htiles, hzero, hle'⟩ := ih _ fuel hrest (by omega)
        refine ⟨(pos + i) :: pre, post, i', heq, rfl, htiles, ?_, hle'⟩
        rw [nfree_cons, if_neg fun h0 => hroom (.inl h0), hzero]
        omega

/-- Entries are taken until there is room enough or the block ends. -/
theorem gather_spec {pos : Nat} (need : Nat) {os : List Nat} : ∀ (i fuel acc : Nat),
    Tiles false m (pos + i) (pos + dirblksiz) os → dirblksiz - i < fuel →
    ∃ mid post i', gather m pos need fuel i acc = some (i', ((acc + nfree false m mid : Nat) : Int))
      ∧ os = mid ++ post ∧ Tiles false m (pos + i) (pos + i') mid ∧ i' ≤ dirblksiz
      ∧ (post = [] ∨ need ≤ acc + nfree false m mid) := by
  induction os with
  | nil =>
    intro i fuel acc h hf
    have hi : i = dirblksiz := Nat.add_left_cancel h
    cases fuel with
    | zero => omega
    | succ fuel => exact ⟨[], [], i, by rw [gather, if_neg (by omega)]; rfl, rfl, rfl, by omega, .inl rfl⟩
  | cons p os ih =>
    intro i fuel acc h hf
    have hrec := h.reclen_pos (List.mem_cons_self ..)
    obtain ⟨rfl, h4, hsiz, hrest⟩ := h
    have hle := hrest.le
    cases fuel with
    | zero => omega
    | succ fuel =>
      rw [gather]
      by_cases henough : (acc : Int) < need
      · rw [if_pos ⟨by omega, henough⟩, if_neg (Nat.ne_of_gt hrec)]
        have hacc : (acc : Int) + dReclen m (pos + i)
            - (if dIno m (pos + i) ≠ 0 then (dirsiz (dNamlen false m (pos + i)) : Int) else 0)
            = ((acc + (if dIno m (pos + i) = 0 then dReclen m (pos + i)
                else dReclen m (pos + i) - dirsiz (dNamlen false m (pos + i))) : Nat) : Int) := by
          by_cases hino : dIno m (pos + i) = 0
          · rw [if_neg (not_not_intro hino), if_pos hino]
            omega
          · rw [if_pos hino, if_neg hino]
            omega
        rw [Nat.add_assoc] at hrest
        obtain ⟨mid, post, i', heq, rfl, htiles, hle', hend⟩ := ih _ fuel _ hrest (by omega)
        refine ⟨(pos + i) :: mid, post, i', ?_, rfl, ⟨rfl, h4, hsiz, ?_⟩, hle', ?_⟩
        · rw [hacc, heq, nfree_cons, Nat.add_assoc]
        · rw [Nat.add_assoc]
          exact htiles
        · rw [nfree_cons, ← Nat.add_assoc]
          exact hend
      · rw [if_neg fun hand => henough hand.2]
        refine ⟨[], _, i, rfl, rfl, rfl, by omega, .inr ?_⟩
        omega

theorem FreeOk.nfree_eq (h : FreeOk dh blks ents) (hd : DirHolds false m blks ents) {b : Nat} (hb : b < blks) :
    dh.dhBlkfree b * diralign = nfree false m (blockOffs m b) := by
  have h1 := h.free b hb
  have h2 := hd.nfree_add_used hb
  omega

/-- What `ufsdirhash_findfree` does with a hash in place: it returns part of one block with enough
room in it, or -1 for want of such a block or because the block cannot be read. -/
theorem findfree_spec (h : FreeOk dh blks ents) (hd : DirHolds false m blks ents) {ip : Inode}
    (hip : ip.iDirhash = some dh) (hnull : dh.dhNull = false) {need : Nat} (hpos : 0 < need)
    (hle : need ≤ dhNfstats * diralign) (err : Bool) :
    (∃ b < blks, ∃ off cnt mid, ufsdirhashFindfree m err ip need = .ok (some (off, cnt), ip) ∧ err = false
      ∧ Region false m b off cnt mid ∧ need ≤ nfree false m mid)
    ∨ (ufsdirhashFindfree m err ip need = .ok (none, ip)
      ∧ (err = true ∨ ∀ b < blks, nfree false m (blockOffs m b) < need)) := by
  have hwords := howmany_diralign need
  have hw : howmany need diralign ≤ dhNfstats := by
    unfold diralign dhNfstats at *
    omega
  rw [ufsdirhashFindfree, locked, hip]
  simp only [hnull, if_false, Bool.false_eq_true]
  rcases h.firstClass hw with ⟨heq, hno⟩ | ⟨b, hb, heq, hfree⟩
  · refine .inr ⟨by rw [heq, if_pos rfl], .inr fun b hb => ?_⟩
    rw [← h.nfree_eq hd hb]
    have hlt := hno b hb
    unfold diralign at *
    omega
  · have hnb := Nat.lt_of_lt_of_le hb h.nblk
    have hroom : need ≤ nfree false m (blockOffs m b) := by
      rw [← h.nfree_eq hd hb]
      have hmul := Nat.mul_le_mul_right diralign hfree
      omega
    rw [heq, if_neg (by omega), Int.toNat_natCast, if_pos ⟨by omega, hfree⟩]
    cases err with
    | true => exact .inr ⟨rfl, .inl rfl⟩
    | false =>
      have htiles := hd.wf b hb
      rw [Nat.add_mul, Nat.one_mul] at htiles
      obtain ⟨pre, rest, i, hskip, hsplit, hrest, hzero, hi⟩ :=
        skipFull_spec 0 (dirblksiz + 1) (by rw [Nat.add_zero]; exact htiles) (by omega)
      obtain ⟨mid, post, i', hgather, rfl, hmid, hi', hend⟩ :=
        gather_spec need i (dirblksiz + 1) 0 hrest (by omega)
      have hsum : nfree false m (blockOffs m b) = nfree false m mid + nfree false m post := by
        rw [hsplit, nfree_append, nfree_append, hzero, Nat.zero_add]
      have henough : need ≤ nfree false m mid := by
        rcases hend with rfl | hge
        · rw [hsum] at hroom
          exact hroom
        · rwa [Nat.zero_add] at hge
      have hii : i ≤ i' := by
        have hle' := hmid.le
        omega
      refine .inl ⟨b, hb, b * dirblksiz + i, b * dirblksiz + i' - (b * dirblksiz + i), mid, ?_, rfl, ?_, henough⟩
      · rw [Nat.zero_add] at hgather
        have hgather' : gather m (b * dirblksiz) need (dirblksiz + 1) i 0
            = some (i', (nfree false m mid : Int)) := hgather
        simp only [hskip, hgather', if_neg (Nat.not_lt.mpr hi), if_neg (Nat.not_lt.mpr hi'),
          if_neg (Int.not_lt.mpr (Int.ofNat_le.mpr henough)), Bool.false_eq_true, if_false]
      · refine ⟨pre, post, by rw [hsplit, List.append_assoc], ?_⟩
        rw [show b * dirblksiz + i + (b * dirblksiz + i' - (b * dirblksiz + i)) = b * dirblksiz + i' by omega]
        exact hmid

end Obsd.Ufs
