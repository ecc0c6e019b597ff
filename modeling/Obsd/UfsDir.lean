import Mathlib

/-!
# Directories of a UFS file system

The bytes of a directory file, the fields of `struct direct` in them, and
what it is for a directory to be well formed: the entries of every block of
`DIRBLKSIZ` bytes lie end to end, are aligned, are long enough for their
names, and fill the block. A directory of `blks` blocks *holds* a list of
entries, offset and name, if these are the ones with an inode; that is how
the results about the hash of a directory and about its searches speak of
its contents.

Numbers of more than one byte are little-endian.
-/

namespace Obsd.Ufs

/-- The bytes of a directory file, by offset. -/
abbrev DirMem := Nat → UInt8

abbrev Name := List UInt8

/-- An entry in use: its offset and its name. -/
abbrev Ent := Nat × Name

variable {fmt : Bool} {m : DirMem} {o e n b blks : Nat} {os os' : List Nat} {ents : List Ent} {name : Name}

/-! ## `struct direct` -/

/-- `DIRBLKSIZ`. -/
def dirblksiz : Nat := 512

/-- `n` bytes as an unsigned number. -/
def le (m : DirMem) (o : Nat) : Nat → Nat
  | 0 => 0
  | n + 1 => (m o).toNat + 256 * le m (o + 1) n

def dIno (m : DirMem) (o : Nat) : Nat := le m o 4

def dReclen (m : DirMem) (o : Nat) : Nat := le m (o + 4) 2

/-- The length of the name; the old format (`fmt`) has it where the new one has `d_type`. -/
def dNamlen (fmt : Bool) (m : DirMem) (o : Nat) : Nat := (m (o + if fmt then 6 else 7)).toNat

def dName (fmt : Bool) (m : DirMem) (o : Nat) : Name :=
  (List.range (dNamlen fmt m o)).map fun i => m (o + 8 + i)

/-- `DIRSIZ`: what an entry with a name of this length takes at least. -/
def dirsiz (namlen : Nat) : Nat := 8 + (namlen + 1 + 3) / 4 * 4

theorem dName_length (fmt : Bool) (m : DirMem) (o : Nat) : (dName fmt m o).length = dNamlen fmt m o := by
  rw [dName, List.length_map, List.length_range]

theorem dNamlen_le (fmt : Bool) (m : DirMem) (o : Nat) : dNamlen fmt m o ≤ 255 :=
  Nat.le_of_lt_succ (UInt8.toNat_lt _)

theorem dirsiz_ge (n : Nat) : 12 ≤ dirsiz n := by
  unfold dirsiz
  omega

theorem dvd_dirsiz (n : Nat) : 4 ∣ dirsiz n := by
  unfold dirsiz
  omega

/-! ## Entries end to end -/

/-- The entries at `os` lie end to end from `o` to `e`. -/
def Tiles (fmt : Bool) (m : DirMem) : Nat → Nat → List Nat → Prop
  | o, e, [] => o = e
  | o, e, p :: os => p = o ∧ 4 ∣ dReclen m o ∧ dirsiz (dNamlen fmt m o) ≤ dReclen m o
      ∧ Tiles fmt m (o + dReclen m o) e os

instance decidableTiles (fmt : Bool) (m : DirMem) : ∀ o e os, Decidable (Tiles fmt m o e os)
  | o, e, [] => inferInstanceAs (Decidable (o = e))
  | o, e, p :: os =>
    have := decidableTiles fmt m (o + dReclen m o) e os
    inferInstanceAs (Decidable (p = o ∧ 4 ∣ dReclen m o ∧ dirsiz (dNamlen fmt m o) ≤ dReclen m o
      ∧ Tiles fmt m (o + dReclen m o) e os))

/-- The offsets one gets to by adding up record lengths. -/
def walk (m : DirMem) : Nat → Nat → Nat → List Nat
  | 0, _, _ => []
  | fuel + 1, o, e => if o < e then o :: walk m fuel (o + dReclen m o) e else []

theorem Tiles.le (h : Tiles fmt m o e os) : o ≤ e := by
  induction os generalizing o with
  | nil => exact Nat.le_of_eq h
  | cons p os ih => exact Nat.le_trans (Nat.le_add_right ..) (ih h.2.2.2)

theorem Tiles.append (h : Tiles fmt m o n os) (h' : Tiles fmt m n e os') : Tiles fmt m o e (os ++ os') := by
  induction os generalizing o with
  | nil =>
    obtain rfl : o = n := h
    exact h'
  | cons p os ih => exact ⟨h.1, h.2.1, h.2.2.1, ih h.2.2.2⟩

/-- What holds of every entry. -/
theorem Tiles.mem (h : Tiles fmt m o e os) {p : Nat} (hp : p ∈ os) :
    o ≤ p ∧ p + dReclen m p ≤ e ∧ 4 ∣ dReclen m p ∧ dirsiz (dNamlen fmt m p) ≤ dReclen m p := by
  induction os generalizing o with
  | nil => cases hp
  | cons q os ih =>
    obtain ⟨rfl, h4, hsiz, hrest⟩ := h
    rcases List.mem_cons.mp hp with rfl | hp
    · exact ⟨le_rfl, hrest.le, h4, hsiz⟩
    · obtain ⟨hle, hend⟩ := ih hrest hp
      exact ⟨Nat.le_trans (Nat.le_add_right ..) hle, hend⟩

theorem Tiles.reclen_pos (h : Tiles fmt m o e os) {p : Nat} (hp : p ∈ os) : 0 < dReclen m p :=
  Nat.lt_of_lt_of_le (Nat.lt_of_lt_of_le (by decide) (dirsiz_ge _)) (h.mem hp).2.2.2

theorem Tiles.pairwise (h : Tiles fmt m o e os) : os.Pairwise (· < ·) := by
  induction os generalizing o with
  | nil => exact .nil
  | cons p os ih =>
    have hpos := h.reclen_pos (List.mem_cons_self ..)
    obtain ⟨rfl, h4, hsiz, hrest⟩ := h
    refine .cons (fun q hq => ?_) (ih hrest)
    exact Nat.lt_of_lt_of_le (Nat.lt_add_of_pos_right hpos) (hrest.mem hq).1

/-! ## Blocks -/

/-- The offsets of the entries of block `b`. -/
def blockOffs (m : DirMem) (b : Nat) : List Nat := walk m dirblksiz (b * dirblksiz) ((b + 1) * dirblksiz)

/-- Every block is filled with entries. -/
def DirWf (fmt : Bool) (m : DirMem) (blks : Nat) : Prop :=
  ∀ b < blks, Tiles fmt m (b * dirblksiz) ((b + 1) * dirblksiz) (blockOffs m b)

instance : Decidable (DirWf fmt m blks) := inferInstanceAs (Decidable (∀ b < blks, _))

/-- The offsets of all entries. -/
def dirOffs (m : DirMem) (blks : Nat) : List Nat := (List.range blks).flatMap (blockOffs m)

/-- An entry does not cross the end of a block. -/
def InBlock (m : DirMem) (o : Nat) : Prop := o % dirblksiz + dReclen m o ≤ dirblksiz

theorem dirOffs_succ (m : DirMem) (blks : Nat) : dirOffs m (blks + 1) = dirOffs m blks ++ blockOffs m blks := by
  rw [dirOffs, List.range_succ, List.flatMap_append, List.flatMap_cons, List.flatMap_nil, List.append_nil]
  rfl

theorem DirWf.mono (h : DirWf fmt m blks) (hn : n ≤ blks) : DirWf fmt m n :=
  fun b hb => h b (Nat.lt_of_lt_of_le hb hn)

/-- Block after block, the entries fill the directory. -/
theorem DirWf.tiles (h : DirWf fmt m blks) : Tiles fmt m 0 (blks * dirblksiz) (dirOffs m blks) := by
  induction blks with
  | zero => exact (Nat.zero_mul _).symm
  | succ blks ih =>
    rw [dirOffs_succ]
    exact (ih (h.mono (Nat.le_succ blks))).append (h blks (Nat.lt_succ_self blks))

theorem DirWf.block (h : DirWf fmt m blks) (hb : b < blks) (ho : o ∈ blockOffs m b) :
    o / dirblksiz = b ∧ InBlock m o := by
  have hpos := (h b hb).reclen_pos ho
  obtain ⟨hle, hend, -, -⟩ := (h b hb).mem ho
  unfold InBlock
  unfold dirblksiz at *
  omega

theorem mem_dirOffs : o ∈ dirOffs m blks ↔ ∃ b < blks, o ∈ blockOffs m b := by
  rw [dirOffs, List.mem_flatMap]
  constructor
  · rintro ⟨b, hb, ho⟩
    exact ⟨b, List.mem_range.mp hb, ho⟩
  · rintro ⟨b, hb, ho⟩
    exact ⟨b, List.mem_range.mpr hb, ho⟩

theorem DirWf.inBlock (h : DirWf fmt m blks) (ho : o ∈ dirOffs m blks) : InBlock m o := by
  obtain ⟨b, hb, hob⟩ := mem_dirOffs.mp ho
  exact (h.block hb hob).2

theorem DirWf.lt (h : DirWf fmt m blks) (ho : o ∈ dirOffs m blks) : o < blks * dirblksiz := by
  have hpos := h.tiles.reclen_pos ho
  have hend := (h.tiles.mem ho).2.1
  omega

/-! ## Contents -/

/-- The entries in use among those at `os`. -/
def liveEnts (fmt : Bool) (m : DirMem) (os : List Nat) : List Ent :=
  (os.filter fun o => dIno m o != 0).map fun o => (o, dName fmt m o)

def dirEnts (fmt : Bool) (m : DirMem) (blks : Nat) : List Ent := liveEnts fmt m (dirOffs m blks)

theorem mem_liveEnts : (o, name) ∈ liveEnts fmt m os ↔ o ∈ os ∧ dIno m o ≠ 0 ∧ dName fmt m o = name := by
  simp only [liveEnts, List.mem_map, List.mem_filter, Prod.mk.injEq, bne_iff_ne]
  constructor
  · rintro ⟨p, ⟨hp, hino⟩, rfl, hname⟩
    exact ⟨hp, hino, hname⟩
  · rintro ⟨ho, hino, hname⟩
    exact ⟨o, ⟨ho, hino⟩, rfl, hname⟩

theorem liveEnts_append (fmt : Bool) (m : DirMem) (os os' : List Nat) :
    liveEnts fmt m (os ++ os') = liveEnts fmt m os ++ liveEnts fmt m os' := by
  rw [liveEnts, List.filter_append, List.map_append]
  rfl

theorem liveEnts_cons (fmt : Bool) (m : DirMem) (o : Nat) (os : List Nat) :
    liveEnts fmt m (o :: os)
      = (if dIno m o = 0 then [] else [(o, dName fmt m o)]) ++ liveEnts fmt m os := by
  unfold liveEnts
  by_cases hino : dIno m o = 0
  · rw [if_pos hino, List.filter_cons_of_neg (by rw [hino]; decide)]
    rfl
  · rw [if_neg hino, List.filter_cons_of_pos (by simpa using hino)]
    rfl

/-- The bytes the entries of block `b` take. -/
def usedIn (ents : List Ent) (b : Nat) : Nat :=
  ((ents.filter fun e => e.1 / dirblksiz = b).map fun e => dirsiz e.2.length).sum

/-- The bytes that are free, as they are added up from the entries. -/
def nfree (fmt : Bool) (m : DirMem) (os : List Nat) : Nat :=
  (os.map fun o => if dIno m o = 0 then dReclen m o else dReclen m o - dirsiz (dNamlen fmt m o)).sum

@[simp] theorem usedIn_nil (b : Nat) : usedIn [] b = 0 := rfl

theorem usedIn_cons (e : Ent) (ents : List Ent) (b : Nat) :
    usedIn (e :: ents) b = (if e.1 / dirblksiz = b then dirsiz e.2.length else 0) + usedIn ents b := by
  unfold usedIn
  by_cases hb : e.1 / dirblksiz = b
  · rw [if_pos hb, List.filter_cons_of_pos (by simpa using hb), List.map_cons, List.sum_cons]
  · rw [if_neg hb, List.filter_cons_of_neg (by simpa using hb), Nat.zero_add]

theorem usedIn_append (ents ents' : List Ent) (b : Nat) :
    usedIn (ents ++ ents') b = usedIn ents b + usedIn ents' b := by
  rw [usedIn, List.filter_append, List.map_append, List.sum_append]
  rfl

theorem usedIn_perm {ents' : List Ent} (h : ents.Perm ents') (b : Nat) : usedIn ents b = usedIn ents' b :=
  ((h.filter _).map _).sum_eq

theorem usedIn_eq_zero (h : ∀ e ∈ ents, e.1 / dirblksiz ≠ b) : usedIn ents b = 0 := by
  rw [usedIn, List.filter_eq_nil_iff.mpr fun e he => by simpa using h e he]
  rfl

/-- Free and used bytes make up what the entries fill. -/
theorem Tiles.nfree_add_used (h : Tiles fmt m o e os) (hblk : ∀ p ∈ os, p / dirblksiz = b) :
    o + nfree fmt m os + usedIn (liveEnts fmt m os) b = e := by
  induction os generalizing o with
  | nil =>
    obtain rfl : o = e := h
    rfl
  | cons p os ih =>
    have hb := hblk p (List.mem_cons_self ..)
    obtain ⟨rfl, h4, hsiz, hrest⟩ := h
    have hih := ih hrest fun q hq => hblk q (List.mem_cons_of_mem _ hq)
    rw [liveEnts_cons, usedIn_append, nfree, List.map_cons, List.sum_cons, ← nfree]
    by_cases hino : dIno m p = 0
    · rw [if_pos hino, if_pos hino, usedIn_nil]
      omega
    · rw [if_neg hino, if_neg hino, usedIn_cons, if_pos hb, dName_length, usedIn_nil]
      omega

theorem DirWf.div_lt (h : DirWf fmt m blks) (ho : o ∈ dirOffs m blks) : o / dirblksiz < blks := by
  obtain ⟨b, hb, hob⟩ := mem_dirOffs.mp ho
  rw [(h.block hb hob).1]
  exact hb

theorem DirWf.usedIn_block (h : DirWf fmt m blks) (hb : b < blks) :
    usedIn (dirEnts fmt m blks) b = usedIn (liveEnts fmt m (blockOffs m b)) b := by
  unfold dirEnts
  induction blks with
  | zero => omega
  | succ blks ih =>
    have hprev := h.mono (Nat.le_succ blks)
    rw [dirOffs_succ, liveEnts_append, usedIn_append]
    by_cases hlast : b = blks
    · subst hlast
      have hbefore : usedIn (liveEnts fmt m (dirOffs m b)) b = 0 := usedIn_eq_zero fun e he => by
        obtain ⟨p, name⟩ := e
        exact Nat.ne_of_lt (hprev.div_lt (mem_liveEnts.mp he).1)
      rw [hbefore, Nat.zero_add]
    · have hafter : usedIn (liveEnts fmt m (blockOffs m blks)) b = 0 := usedIn_eq_zero fun e he => by
        obtain ⟨p, name⟩ := e
        rw [(h.block (Nat.lt_succ_self blks) (mem_liveEnts.mp he).1).1]
        exact fun heq => hlast heq.symm
      rw [ih hprev (by omega), hafter, Nat.add_zero]

/-! ## What a directory holds -/

/-- The directory is well formed and its entries in use are `ents`, in any order. -/
structure DirHolds (fmt : Bool) (m : DirMem) (blks : Nat) (ents : List Ent) : Prop where
  pos : 0 < blks
  wf : DirWf fmt m blks
  perm : (dirEnts fmt m blks).Perm ents
  names : (ents.map Prod.snd).Nodup

/-- What the offsets and names of a directory's entries are like, wherever
the bytes are just being moved about. -/
structure DirOk (blks : Nat) (ents : List Ent) : Prop where
  pos : 0 < blks
  offs : (ents.map Prod.fst).Nodup
  names : (ents.map Prod.snd).Nodup
  lt : ∀ e ∈ ents, e.1 / dirblksiz < blks
  len : ∀ e ∈ ents, e.2.length ≤ 255
  fits : ∀ b, usedIn ents b ≤ dirblksiz

theorem DirHolds.mem (h : DirHolds fmt m blks ents) :
    (o, name) ∈ ents ↔ o ∈ dirOffs m blks ∧ dIno m o ≠ 0 ∧ dName fmt m o = name := by
  rw [← h.perm.mem_iff, dirEnts, mem_liveEnts]

/-- What is free in a block and what its entries take. -/
theorem DirHolds.nfree_add_used (h : DirHolds fmt m blks ents) (hb : b < blks) :
    nfree fmt m (blockOffs m b) + usedIn ents b = dirblksiz := by
  have hsum := (h.wf b hb).nfree_add_used (b := b) fun p hp => (h.wf.block hb hp).1
  rw [← h.wf.usedIn_block hb, usedIn_perm h.perm, Nat.add_mul, Nat.one_mul, Nat.add_assoc] at hsum
  exact Nat.add_left_cancel hsum

theorem DirHolds.ok (h : DirHolds fmt m blks ents) : DirOk blks ents := by
  refine ⟨h.pos, ?_, h.names, fun e he => ?_, fun e he => ?_, fun b => ?_⟩
  · refine (h.perm.map Prod.fst).nodup_iff.mp ?_
    rw [dirEnts, liveEnts, List.map_map]
    have hid : (Prod.fst ∘ fun o => (o, dName fmt m o)) = id := rfl
    rw [hid, List.map_id]
    exact (h.wf.tiles.pairwise.imp Nat.ne_of_lt).filter _
  · obtain ⟨o, name⟩ := e
    exact h.wf.div_lt (h.mem.mp he).1
  · obtain ⟨o, name⟩ := e
    rw [← (h.mem.mp he).2.2, dName_length]
    exact dNamlen_le ..
  · by_cases hb : b < blks
    · have hsum := h.nfree_add_used hb
      omega
    · have hzero : usedIn ents b = 0 := usedIn_eq_zero fun e he => by
        obtain ⟨o, name⟩ := e
        have hlt := h.wf.div_lt (h.mem.mp he).1
        exact Nat.ne_of_lt (Nat.lt_of_lt_of_le hlt (Nat.le_of_not_lt hb))
      rw [hzero]
      exact Nat.zero_le _

/-! ## Linear search -/

/-- The first entry of that name, from `pos` on. -/
def scan (fmt : Bool) (m : DirMem) (size : Nat) (name : Name) : Nat → Nat → Option Nat
  | 0, _ => none
  | fuel + 1, pos =>
    if pos < size then
      if dIno m pos ≠ 0 ∧ dName fmt m pos = name then some pos
      else scan fmt m size name fuel (pos + dReclen m pos)
    else none

theorem Tiles.scan (h : Tiles fmt m o e os) (name : Name) : ∀ fuel, e - o < fuel →
    scan fmt m e name fuel o = os.find? fun p => dIno m p != 0 && dName fmt m p == name := by
  induction os generalizing o with
  | nil =>
    obtain rfl : o = e := h
    intro fuel hf
    cases fuel with
    | zero => omega
    | succ fuel => rw [Ufs.scan, if_neg (Nat.lt_irrefl o), List.find?_nil]
  | cons p os ih =>
    intro fuel hf
    have hpos := h.reclen_pos (List.mem_cons_self ..)
    obtain ⟨rfl, h4, hsiz, hrest⟩ := h
    have hle := hrest.le
    cases fuel with
    | zero => omega
    | succ fuel =>
      rw [Ufs.scan, if_pos (by omega : p < e)]
      by_cases hhit : dIno m p ≠ 0 ∧ dName fmt m p = name
      · rw [if_pos hhit, List.find?_cons_of_pos (by simpa using hhit)]
      · rw [if_neg hhit, List.find?_cons_of_neg (by simpa using hhit), ih hrest fuel (by omega)]

/-- A search over the whole directory. -/
def linearScan (fmt : Bool) (m : DirMem) (blks : Nat) (name : Name) : Option Nat :=
  scan fmt m (blks * dirblksiz) name (blks * dirblksiz + 1) 0

/-- A linear search finds an entry if there is one of that name. -/
theorem DirHolds.linearScan_eq (h : DirHolds fmt m blks ents) (name : Name) :
    (∀ o, linearScan fmt m blks name = some o ↔ (o, name) ∈ ents)
      ∧ (linearScan fmt m blks name = none ↔ ∀ o, (o, name) ∉ ents) := by
  have hscan := h.wf.tiles.scan name (blks * dirblksiz + 1) (by omega)
  rw [linearScan, hscan]
  have huniq : ∀ o p, (o, name) ∈ ents → (p, name) ∈ ents → o = p := by
    intro o p ho hp
    exact congrArg Prod.fst (List.inj_on_of_nodup_map h.names ho hp rfl)
  have hnone : ((dirOffs m blks).find? fun p => dIno m p != 0 && dName fmt m p == name) = none
      ↔ ∀ o, (o, name) ∉ ents := by
    rw [List.find?_eq_none]
    constructor
    · intro hno o ho
      obtain ⟨hmem, hino, hname⟩ := h.mem.mp ho
      exact hno o hmem (by simp [hino, hname])
    · intro hno p hp hhit
      refine hno p (h.mem.mpr ⟨hp, ?_⟩)
      simpa using hhit
  have hsome : ∀ o, ((dirOffs m blks).find? fun p => dIno m p != 0 && dName fmt m p == name) = some o →
      (o, name) ∈ ents := by
    intro o ho
    have hhit := List.find?_some ho
    exact h.mem.mpr ⟨List.mem_of_find?_eq_some ho, by simpa using hhit⟩
  refine ⟨fun o => ⟨hsome o, fun ho => ?_⟩, hnone⟩
  rcases hf : (dirOffs m blks).find? fun p => dIno m p != 0 && dName fmt m p == name with _ | p
  · exact absurd ho (hnone.mp hf o)
  · rw [huniq o p ho (hsome p hf)]

end Obsd.Ufs
