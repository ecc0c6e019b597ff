import Obsd.DirhashRuns

/-!
# Building a hash from a corrupt directory

`ufsdirhash_build` takes a directory as it is on the disk. Of a record it
asks that its length is not zero and that it stays in its block of
`DIRBLKSIZ` bytes, not that there is room for its name. The table is as
large as a directory of this size with records of the smallest legal size
needs it, and half as large again; a directory with smaller records can
fill it, and then the search for a free slot does not end. In the same way
names that do not fit into their records make a block's free space
negative, which is stored in a byte.

Here the contents are arbitrary. `scanned` lists the entries the loop comes
to, and the theorem says for which of them all goes well. A directory has
at most `MAXDIRSIZE` bytes, offsets being of type `doff_t`.
-/

namespace Obsd.Ufs

open OpenTable

variable {env : BuildEnv} {m : DirMem} {ip : Inode} {dh dh' dh'' : Dirhash} {ents : List Ent} {e : Ent}
  {b o pos fuel : Nat}

/-! ## What the loop comes to -/

/-- The entries in use up to the end, or up to a record that is refused or a block that cannot
be read; and whether it is the end. -/
def scanned (env : BuildEnv) (m : DirMem) (ip : Inode) : (fuel pos : Nat) → List Ent × Bool
  | 0, _ => ([], false)
  | fuel + 1, pos =>
    if pos < ip.size then
      if pos % ip.iosize = 0 ∧ env.bufatoff pos then ([], false)
      else if dReclen m pos = 0 ∨ dReclen m pos > dirblksiz - pos % dirblksiz then ([], false)
      else
        let r := scanned env m ip fuel (pos + dReclen m pos)
        (if dIno m pos ≠ 0 then (pos, dName false m pos) :: r.1 else r.1, r.2)
    else ([], true)

/-- `dh_hlen` of a directory of this size. -/
def buildHlen (size : Nat) : Nat := howmany ((size / dirsiz 1 * 3 + 1) / 2) dhNblkoff * dhNblkoff

/-- The entries fit: there are not too many for the table, and if all are added then not as
many as it has slots and in no block more than it has room for. -/
def EntriesFit (env : BuildEnv) (m : DirMem) (ip : Inode) : Prop :=
  let r := scanned env m ip (ip.size + 1) 0
  r.1.length ≤ buildHlen ip.size
    ∧ (r.2 = true → r.1.length < buildHlen ip.size ∧ ∀ b < howmany ip.size dirblksiz, usedIn r.1 b ≤ dirblksiz)

/-- The free space of a block is that which the entries added leave: it has not wrapped. -/
def Unwrapped (dh : Dirhash) (ents : List Ent) : Prop :=
  ∀ b < dh.dhDirblks, dh.dhBlkfree b * diralign + usedIn ents b = dirblksiz

/-! ## One entry -/

theorem diralign_dvd_usedIn (ents : List Ent) (b : Nat) : diralign ∣ usedIn ents b := by
  induction ents with
  | nil => exact Nat.dvd_zero _
  | cons e ents ih =>
    rw [usedIn_cons]
    refine (Nat.dvd_add_right ?_).mpr ih
    split
    · exact dvd_dirsiz _
    · exact Nat.dvd_zero _

theorem byte_lt (x : Int) : (x % 256).toNat < 256 := by omega

theorem byte_mod (x : Int) : ((x % 256).toNat : Int) % 256 = x % 256 := by omega

/-- The count of a block goes down by the words of the entry, in a byte. -/
theorem adjfree_eq (diff : Int) (hblk : o / dirblksiz < dh.dhDirblks) (hn : dh.dhDirblks ≤ dh.dhNblk) :
    ∃ firstfree, ufsdirhashAdjfree dh o diff = .ok { dh with
      dhBlkfree := Function.update dh.dhBlkfree (o / dirblksiz)
        (((dh.dhBlkfree (o / dirblksiz) : Int) + diff.tdiv diralign) % 256).toNat
      dhFirstfree := firstfree } := by
  unfold ufsdirhashAdjfree
  simp only [if_pos (And.intro (Nat.lt_of_lt_of_le hblk hn) hblk)]
  split
  · exact ⟨_, rfl⟩
  · exact ⟨dh.dhFirstfree, rfl⟩

/-- What the loop keeps of a table: its slots in use are counted. -/
structure Counts (size : Nat) (dh : Dirhash) : Prop where
  hlen : dh.dhHlen = buildHlen size
  pos : 0 < dh.dhHlen
  hused : dh.dhHused = used dh.dhHash dh.dhHlen
  dirblks : dh.dhDirblks = howmany size dirblksiz
  nblk : dh.dhDirblks ≤ dh.dhNblk
  byte : ∀ b, dh.dhBlkfree b < 256

/-- The table after some entries were added: as many slots more are in use, and the free
space is what is left of it in a byte. -/
structure After (ents : List Ent) (dh dh' : Dirhash) : Prop where
  hused : dh'.dhHused = dh.dhHused + ents.length
  dhNull : dh'.dhNull = dh.dhNull
  free : ∀ b, (dh'.dhBlkfree b : Int) % 256 = (dh.dhBlkfree b - (usedIn ents b / diralign : Nat)) % 256

theorem After.refl (dh : Dirhash) : After [] dh dh :=
  ⟨(Int.add_zero _).symm, rfl, fun b => by rw [usedIn_nil, Nat.zero_div, Int.natCast_zero, Int.sub_zero]⟩

theorem After.cons (h₁ : After [e] dh dh') (h₂ : After ents dh' dh'') : After (e :: ents) dh dh'' := by
  refine ⟨?_, h₂.dhNull.trans h₁.dhNull, fun b => ?_⟩
  · rw [h₂.hused, h₁.hused, List.length_cons, List.length_cons, List.length_nil]
    omega
  · have hfree := h₁.free b
    obtain ⟨k, hk⟩ := diralign_dvd_usedIn [e] b
    have hsum : usedIn (e :: ents) b = usedIn [e] b + usedIn ents b := usedIn_append [e] ents b
    rw [h₂.free, hsum, hk]
    rw [hk] at hfree
    unfold diralign at hfree ⊢
    omega

/-- An entry is added to a table that has a free slot. -/
theorem add_entry (hc : Counts ip.size dh) (hroom : dh.dhHused < dh.dhHlen) (hpos : pos < ip.size) (name : Name)
    (namlen : Nat) (hname : name.length = namlen) :
    ∃ slot dh', probe dh.dhHlen (fun s => isEmpty (dh.dhHash s)) dh.dhHlen (ufsdirhashHash dh name) = some slot
      ∧ ufsdirhashAdjfree { dh with
          dhHused := dh.dhHused + 1
          dhHash := Function.update dh.dhHash slot (.full pos) } pos (-(dirsiz namlen : Int)) = .ok dh'
      ∧ Counts ip.size dh' ∧ After [(pos, name)] dh dh' := by
  have hblk : pos / dirblksiz < dh.dhDirblks := by
    rw [hc.dirblks]
    unfold howmany dirblksiz
    omega
  have hused := hc.hused
  have hroom' : used dh.dhHash dh.dhHlen < dh.dhHlen := by omega
  obtain ⟨s, hs, hempty⟩ := exists_empty hroom'
  have hhome : ufsdirhashHash dh name < dh.dhHlen := Nat.mod_lt _ hc.pos
  obtain ⟨d, -, hprobe, hstop, -⟩ := probe_spec (p := fun s => isEmpty (dh.dhHash s)) hhome hs
    (isEmpty_iff.mpr hempty)
  have hslot := after_lt hc.pos (ufsdirhashHash dh name) d
  generalize after dh.dhHlen (ufsdirhashHash dh name) d = slot at hprobe hstop hslot
  obtain ⟨ff, hadj⟩ := @adjfree_eq { dh with
    dhHused := dh.dhHused + 1
    dhHash := Function.update dh.dhHash slot (.full pos) } pos (-(dirsiz namlen : Int)) hblk hc.nblk
  refine ⟨slot, _, hprobe, hadj, ⟨hc.hlen, hc.pos, ?_, hc.dirblks, hc.nblk, fun b => ?_⟩, rfl, rfl, fun b => ?_⟩
  · rw [used_fill hslot (isEmpty_iff.mp hstop) (Slot.full_ne_empty pos), hused]
    rfl
  · show Function.update dh.dhBlkfree _ _ b < 256
    by_cases hb : b = pos / dirblksiz
    · rw [hb, Function.update_self]
      exact byte_lt _
    · rw [Function.update_of_ne hb]
      exact hc.byte b
  · show (Function.update dh.dhBlkfree _ _ b : Int) % 256 = _
    rw [usedIn_cons, usedIn_nil, hname, Nat.add_zero]
    by_cases hb : b = pos / dirblksiz
    · obtain ⟨k, hk⟩ := dvd_dirsiz namlen
      have hdiv : (-(dirsiz namlen : Int)).tdiv diralign = -(k : Int) := by
        rw [hk, Int.natCast_mul, Int.neg_tdiv]
        congr 1
        exact Int.mul_tdiv_cancel_left (k : Int) (by decide)
      have hwords : 4 * k / diralign = k := Nat.mul_div_cancel_left k (by decide)
      rw [hb, Function.update_self, if_pos rfl, hdiv, hk, byte_mod, hwords]
      rfl
    · rw [Function.update_of_ne hb, if_neg (Ne.symm hb), Nat.zero_div, Int.natCast_zero, Int.sub_zero]

/-! ## The loop -/

/-- The loop ends if there are slots enough for what it comes to; else it does not. -/
theorem buildLoop_scanned (env : BuildEnv) (m : DirMem) (ip : Inode) : ∀ fuel pos (dh : Dirhash),
    ip.size - pos < fuel → Counts ip.size dh →
    (dh.dhHused + (scanned env m ip fuel pos).1.length ≤ dh.dhHlen →
      ∃ dh', buildLoop env m ip fuel pos dh
          = .ok (if (scanned env m ip fuel pos).2 then some dh' else none)
        ∧ Counts ip.size dh' ∧ After (scanned env m ip fuel pos).1 dh dh')
    ∧ (dh.dhHlen < dh.dhHused + (scanned env m ip fuel pos).1.length →
      buildLoop env m ip fuel pos dh = .error .hang) := by
  intro fuel
  induction fuel with
  | zero => intro pos dh hf; omega
  | succ fuel ih =>
    intro pos dh hf hc
    have hle : dh.dhHused ≤ dh.dhHlen := by
      rw [hc.hused]
      exact Int.ofNat_le.mpr (Nat.count_le _)
    rw [scanned, buildLoop]
    by_cases hpos : pos < ip.size
    · rw [if_pos hpos, if_pos hpos]
      by_cases hread : pos % ip.iosize = 0 ∧ env.bufatoff pos = true
      · rw [if_pos hread, if_pos hread]
        refine ⟨fun _ => ⟨dh, rfl, hc, After.refl dh⟩, fun hlt => ?_⟩
        simp only [List.length_nil] at hlt
        omega
      · rw [if_neg hread, if_neg hread]
        by_cases hrec : dReclen m pos = 0 ∨ dReclen m pos > dirblksiz - pos % dirblksiz
        · rw [if_pos hrec, if_pos hrec]
          refine ⟨fun _ => ⟨dh, rfl, hc, After.refl dh⟩, fun hlt => ?_⟩
          simp only [List.length_nil] at hlt
          omega
        · rw [if_neg hrec, if_neg hrec]
          have hstep : ip.size - (pos + dReclen m pos) < fuel := by omega
          by_cases hino : dIno m pos = 0
          · simp only [hino, ne_eq, not_true, if_false]
            exact ih _ dh hstep hc
          · simp only [hino, ne_eq, not_false_eq_true, if_true, List.length_cons]
            by_cases hroom : dh.dhHused < dh.dhHlen
            · obtain ⟨slot, dh', hprobe, hadj, hc', hafter⟩ := add_entry hc hroom hpos (dName false m pos)
                (dNamlen false m pos) (dName_length false m pos)
              have hhused := hafter.hused
              have hlen : dh'.dhHlen = dh.dhHlen := hc'.hlen.trans hc.hlen.symm
              rw [List.length_singleton] at hhused
              obtain ⟨hends, hhangs⟩ := ih (pos + dReclen m pos) dh' hstep hc'
              simp only [hprobe, hadj, bind, Except.bind]
              refine ⟨fun hfit => ?_, fun hlt => hhangs (by omega)⟩
              obtain ⟨dh'', heq, hc'', hafter'⟩ := hends (by omega)
              exact ⟨dh'', heq, hc'', hafter.cons hafter'⟩
            · -- there is no free slot
              have hfull : used dh.dhHash dh.dhHlen = dh.dhHlen := by
                have hused := hc.hused
                omega
              have hnone : probe dh.dhHlen (fun s => isEmpty (dh.dhHash s)) dh.dhHlen
                  (ufsdirhashHash dh (dName false m pos)) = none :=
                probe_none (fun s hs => Bool.eq_false_iff.mpr fun he => full_of_used hfull hs (isEmpty_iff.mp he))
                  (Nat.mod_lt _ hc.pos)
              exact ⟨fun hfit => by omega, fun _ => by rw [hnone]⟩
    · rw [if_neg hpos, if_neg hpos]
      refine ⟨fun _ => ⟨dh, rfl, hc, After.refl dh⟩, fun hlt => ?_⟩
      simp only [List.length_nil] at hlt
      omega

/-! ## The whole -/

/-- A hash is to be built: there is none, or one whose memory was taken, and the directory is
large enough and still linked. -/
def Attempts (env : BuildEnv) (ip : Inode) : Prop :=
  (match ip.iDirhash with
    | none => env.mindirhashsize ≤ ip.size ∧ ip.ofsfmt = false
    | some dh => env.mindirhashsize ≤ ip.size ∧ env.dirhashmem ≤ env.dirhashmaxmem ∧ dh.dhNull = true)
    ∧ ip.iEffnlink ≠ 0

/-- There is memory for it. -/
def HasMemory (env : BuildEnv) (ip : Inode) : Prop :=
  let nslots := (ip.size / dirsiz 1 * 3 + 1) / 2
  let narrays := howmany nslots dhNblkoff
  let nblocks := (howmany ip.size dirblksiz * 3 + 1) / 2
  let memreqd := env.sizeofDirhash + narrays * env.sizeofPointer + narrays * dhNblkoff * 4 + nblocks
  ¬(memreqd + env.dirhashmem > env.dirhashmaxmem
    ∧ (memreqd > env.dirhashmaxmem / 2 ∨ env.recycle = false)) ∧ env.malloc = true

/-- What is asked of `ufsdirhash_build`: it returns, and if it returns 0 then with the hash that
was there, or with a new one that has a free slot and no count that has wrapped. -/
def Builds (env : BuildEnv) (m : DirMem) (ip : Inode) : Prop :=
  ∃ r ip', ufsdirhashBuild env m ip = .ok (r, ip')
    ∧ (r = 0 → (∃ dh, ip.iDirhash = some dh ∧ dh.dhNull = false ∧ ip' = ip)
      ∨ ∃ dh, ip'.iDirhash = some dh ∧ used dh.dhHash dh.dhHlen < dh.dhHlen
        ∧ Unwrapped dh (scanned env m ip (ip.size + 1) 0).1)

theorem counts_new (env : BuildEnv) {size : Nat} (hsize : dirblksiz ≤ size) :
    Counts size (newDirhash env (howmany ((size / dirsiz 1 * 3 + 1) / 2) dhNblkoff)
      ((howmany size dirblksiz * 3 + 1) / 2) (howmany size dirblksiz)) := by
  have hpos := (nslots_big hsize).1
  have hblocks : howmany size dirblksiz ≤ (howmany size dirblksiz * 3 + 1) / 2 := by omega
  refine ⟨rfl, Nat.mul_pos hpos (by decide), (tableOk_new env _ _ hpos).hused, rfl, hblocks, fun b => ?_⟩
  simp only [newDirhash]
  split
  · decide
  · decide

/-- A count that started with an empty block is right if the entries fit. -/
theorem unwrapped_iff {size : Nat} (hdh : ∀ b < howmany size dirblksiz, dh.dhBlkfree b = dirblksiz / diralign)
    (hc : Counts size dh') (ha : After ents dh dh') :
    Unwrapped dh' ents ↔ ∀ b < howmany size dirblksiz, usedIn ents b ≤ dirblksiz := by
  unfold Unwrapped
  rw [hc.dirblks]
  refine forall₂_congr fun b hb => ?_
  obtain ⟨k, hk⟩ := diralign_dvd_usedIn ents b
  have hfree := ha.free b
  have hbyte := hc.byte b
  rw [hdh b hb, hk] at hfree
  unfold diralign dirblksiz at *
  omega

/-- A loop that starts with an empty table. -/
theorem built_iff (hc : Counts ip.size dh) (hused : dh.dhHused = 0)
    (hfree : ∀ b < howmany ip.size dirblksiz, dh.dhBlkfree b = dirblksiz / diralign) :
    (∃ r ip', (buildLoop env m ip (ip.size + 1) 0 dh >>= fun
        | none => .ok (-1, ufsdirhashFree ip)
        | some dh => .ok (0, { ip with iDirhash := some { dh with dhOnlist := true } })) = .ok (r, ip')
      ∧ (r = 0 → ∃ dh, ip'.iDirhash = some dh ∧ used dh.dhHash dh.dhHlen < dh.dhHlen
        ∧ Unwrapped dh (scanned env m ip (ip.size + 1) 0).1))
    ↔ EntriesFit env m ip := by
  obtain ⟨hends, hhangs⟩ := buildLoop_scanned env m ip (ip.size + 1) 0 dh (by omega) hc
  have hhlen := hc.hlen
  unfold EntriesFit
  dsimp only
  by_cases hfit : (scanned env m ip (ip.size + 1) 0).1.length ≤ buildHlen ip.size
  · obtain ⟨dh', heq, hc', hafter⟩ := hends (by omega)
    rw [heq]
    have hhused' : dh'.dhHused = dh.dhHused + _ := hafter.hused
    have hused' := hc'.hused
    have hhlen' := hc'.hlen
    have hunwrapped := unwrapped_iff hfree hc' hafter
    rcases hend : (scanned env m ip (ip.size + 1) 0).2 with _ | _
    · -- a record was refused
      exact iff_of_true ⟨-1, _, rfl, fun h => absurd h (by decide)⟩ ⟨hfit, nofun⟩
    · constructor
      · rintro ⟨r, ip', h, hres⟩
        obtain ⟨rfl, rfl⟩ := Prod.mk.inj (Except.ok.inj h)
        obtain ⟨_, hdh, hroom, hun⟩ := hres rfl
        obtain rfl := Option.some.inj hdh
        exact ⟨hfit, fun _ => ⟨by dsimp only at hroom; omega, hunwrapped.mp hun⟩⟩
      · rintro ⟨-, hall⟩
        obtain ⟨hlt, hblocks⟩ := hall rfl
        exact ⟨0, _, rfl, fun _ => ⟨_, rfl, by dsimp only; omega, hunwrapped.mpr hblocks⟩⟩
  · rw [hhangs (by omega)]
    exact iff_of_false nofun fun h => hfit h.1

theorem buildNew_iff (env : BuildEnv) (m : DirMem) (ip : Inode) :
    (∃ r ip', buildNew env m ip = .ok (r, ip') ∧ (r = 0 → ∃ dh, ip'.iDirhash = some dh
      ∧ used dh.dhHash dh.dhHlen < dh.dhHlen ∧ Unwrapped dh (scanned env m ip (ip.size + 1) 0).1))
    ↔ (ip.iEffnlink ≠ 0 → dirblksiz ≤ ip.size ∧ (HasMemory env ip → EntriesFit env m ip)) := by
  unfold buildNew
  dsimp only
  by_cases hlink : ip.iEffnlink = 0
  · rw [if_pos hlink]
    exact iff_of_true ⟨-1, ip, rfl, fun h => absurd h (by decide)⟩ fun h => absurd hlink h
  · rw [if_neg hlink]
    by_cases hsize : ip.size < dirblksiz
    · rw [if_pos hsize]
      exact iff_of_false nofun fun h => absurd (h hlink).1 (Nat.not_le.mpr hsize)
    · rw [if_neg hsize]
      have hge : dirblksiz ≤ ip.size := Nat.le_of_not_lt hsize
      split
      · rename_i hmem
        exact iff_of_true ⟨-1, ip, rfl, fun h => absurd h (by decide)⟩ fun _ => ⟨hge, fun h => absurd hmem h.1⟩
      · rename_i hmem
        split
        · rename_i hmalloc
          refine iff_of_true ⟨-1, ip, rfl, fun h => absurd h (by decide)⟩ fun _ => ⟨hge, fun h => ?_⟩
          exact absurd (hmalloc.symm.trans h.2) (by decide)
        · rename_i hmalloc
          have hhas : HasMemory env ip := ⟨hmem, eq_true_of_ne_false hmalloc⟩
          refine (built_iff (counts_new env hge) rfl fun b hb => if_pos hb).trans ?_
          exact ⟨fun h _ => ⟨hge, fun _ => h⟩, fun h => (h hlink).2 hhas⟩

/-- What the loop comes to does not depend on the hash that is there. -/
theorem scanned_free (env : BuildEnv) (m : DirMem) (ip : Inode) (fuel pos : Nat) :
    scanned env m (ufsdirhashFree ip) fuel pos = scanned env m ip fuel pos := by
  induction fuel generalizing pos with
  | zero => rfl
  | succ fuel ih =>
    rw [scanned, scanned, ih]
    rfl

/-- A hash is built as it should exactly if the directory is no smaller than a block and, where
there is memory for a hash, its entries fit. -/
theorem dirhash_builds_iff (env : BuildEnv) (m : DirMem) (ip : Inode) :
    Builds env m ip
      ↔ (Attempts env ip → dirblksiz ≤ ip.size ∧ (HasMemory env ip → EntriesFit env m ip)) := by
  unfold Builds Attempts ufsdirhashBuild
  rcases hip : ip.iDirhash with _ | dh
  · dsimp only
    by_cases hcheck : ip.size < env.mindirhashsize ∨ ip.ofsfmt = true
    · rw [if_pos hcheck]
      refine iff_of_true ⟨-1, ip, rfl, fun h => absurd h (by decide)⟩ fun h => ?_
      rcases hcheck with hlt | hofs
      · exact absurd h.1.1 (Nat.not_le.mpr hlt)
      · exact absurd (hofs.symm.trans h.1.2) (by decide)
    · rw [if_neg hcheck]
      obtain ⟨hmin, hofs⟩ := not_or.mp hcheck
      have hattempts : env.mindirhashsize ≤ ip.size ∧ ip.ofsfmt = false :=
        ⟨Nat.le_of_not_lt hmin, eq_false_of_ne_true hofs⟩
      have hiff := buildNew_iff env m ip
      simp only [reduceCtorEq, false_and, exists_false, false_or]
      exact hiff.trans (imp_congr_left (and_iff_right hattempts).symm)
  · dsimp only
    by_cases hcheck : ip.size < env.mindirhashsize ∨ env.dirhashmem > env.dirhashmaxmem
    · rw [if_pos hcheck]
      refine iff_of_true ⟨-1, _, rfl, fun h => absurd h (by decide)⟩ fun h => ?_
      rcases hcheck with hlt | hmem
      · exact absurd h.1.1 (Nat.not_le.mpr hlt)
      · exact absurd h.1.2.1 (Nat.not_le.mpr hmem)
    · rw [if_neg hcheck]
      obtain ⟨hmin, hmem⟩ := not_or.mp hcheck
      by_cases hnull : dh.dhNull = false
      · rw [if_pos hnull]
        refine iff_of_true ⟨0, ip, rfl, fun _ => .inl ⟨dh, rfl, hnull, rfl⟩⟩ fun h => ?_
        exact absurd (hnull.symm.trans h.1.2.2) (by decide)
      · rw [if_neg hnull]
        have hattempts : env.mindirhashsize ≤ ip.size ∧ env.dirhashmem ≤ env.dirhashmaxmem ∧ dh.dhNull = true :=
          ⟨Nat.le_of_not_lt hmin, Nat.le_of_not_lt hmem, eq_true_of_ne_false hnull⟩
        have hiff := buildNew_iff env m (ufsdirhashFree ip)
        have hnot : ∀ ip', ¬∃ d, some dh = some d ∧ d.dhNull = false ∧ ip' = ip := by
          rintro ip' ⟨d, hd, hf, -⟩
          exact hnull (Option.some.inj hd ▸ hf)
        have hentries : EntriesFit env m (ufsdirhashFree ip) ↔ EntriesFit env m ip := by
          unfold EntriesFit
          rw [scanned_free]
          rfl
        rw [scanned_free] at hiff
        simp only [hnot, false_or]
        refine hiff.trans ((imp_congr_left (and_iff_right hattempts).symm).trans ?_)
        exact imp_congr_right fun _ => and_congr_right fun _ => imp_congr_right fun _ => hentries

/-- A directory of records of two bytes: every other byte is 2, so at every even offset there is
an inode number, a length of 2 and a name of no bytes. -/
def shortDir : DirMem := fun i => if i % 2 = 0 then 2 else 0

/-- Its inode: two blocks. -/
def shortInode : Inode := { dotInode with size := 1024 }

theorem shortDir_record {pos : Nat} (hpos : pos % 2 = 0) : dReclen shortDir pos = 2 ∧ dIno shortDir pos ≠ 0 := by
  have heven : ∀ i, i % 2 = 0 → shortDir i = 2 := fun i hi => if_pos hi
  have hodd : ∀ i, i % 2 = 1 → shortDir i = 0 := fun i hi => if_neg (by omega)
  unfold dReclen dIno
  simp only [le, heven pos hpos, heven (pos + 4) (by omega), hodd (pos + 4 + 1) (by omega)]
  exact ⟨rfl, fun h => absurd (Nat.add_eq_zero_iff.mp h).1 (by decide)⟩

theorem scanned_short (fuel k : Nat) (hfuel : 512 - k < fuel) :
    (scanned dotEnv shortDir shortInode fuel (2 * k)).1.length = 512 - k := by
  induction fuel generalizing k with
  | zero => omega
  | succ fuel ih =>
    rw [scanned]
    by_cases hk : k < 512
    · obtain ⟨hreclen, hino⟩ := shortDir_record (Nat.mul_mod_right 2 k)
      have hread : ¬(2 * k % shortInode.iosize = 0 ∧ dotEnv.bufatoff (2 * k) = true) := fun h => nomatch h.2
      have hrec : ¬(2 = 0 ∨ 2 > dirblksiz - 2 * k % dirblksiz) := by
        unfold dirblksiz
        omega
      have hnext : 2 * k + 2 = 2 * (k + 1) := rfl
      rw [if_pos (show 2 * k < shortInode.size by show 2 * k < 1024; omega), if_neg hread, hreclen, if_neg hrec, hnext]
      simp only [hino, ne_eq, not_false_eq_true, if_true, List.length_cons]
      rw [ih (k + 1) (by omega)]
      omega
    · rw [if_neg (show ¬2 * k < shortInode.size by show ¬2 * k < 1024; omega)]
      exact (Nat.sub_eq_zero_of_le (Nat.le_of_not_lt hk)).symm

/-- The table has 256 slots, the directory 512 entries: the search for a free slot for the 257th
does not end. -/
theorem dirhash_build_hangs : ¬Builds dotEnv shortDir shortInode := by
  rintro ⟨r, ip', heq, hres⟩
  have hnone : shortInode.iDirhash = none := rfl
  have hbuilt : ufsdirhashBuild dotEnv shortDir shortInode = buildNew dotEnv shortDir shortInode := by
    unfold ufsdirhashBuild
    exact if_neg fun h => nomatch h
  rw [hbuilt] at heq
  simp only [hnone, reduceCtorEq, false_and, exists_false, false_or] at hres
  obtain ⟨-, hfit⟩ := (buildNew_iff dotEnv shortDir shortInode).mp ⟨r, ip', heq, hres⟩ two_ne_zero
  have hmem : HasMemory dotEnv shortInode := ⟨by decide, rfl⟩
  have hlen : (scanned dotEnv shortDir shortInode 1025 0).1.length = 512 := scanned_short 1025 0 (by omega)
  have hle : (scanned dotEnv shortDir shortInode 1025 0).1.length ≤ 256 := (hfit hmem).1
  omega

end Obsd.Ufs
