import Obsd.DirhashFree
import Obsd.DirhashTable
import Obsd.Runs

/-!
# A directory and its hash

The hash is told of every change to the directory. Here a directory is
known by its entries in use and its number of blocks; a call that mirrors a
change changes these too, and a call that reads the directory is given any
bytes that hold the entries. In every run the hash that is there, if it was
not taken away, is that of the directory: it never fails an assertion,
every loop ends, a search agrees with a linear scan, and the search for
free space finds what there is.
-/

namespace Obsd.Ufs

open OpenTable

variable {dh : Dirhash} {m : DirMem} {blks o slot : Nat} {ents ents' : List Ent} {name : Name} {ip : Inode}

/-! ## The hash of an inode -/

/-- A hash with its memory in place is that of the directory. -/
structure Live (dh : Dirhash) (blks : Nat) (ents : List Ent) : Prop where
  table : TableOk dh ents
  free : FreeOk dh blks ents
  onlist : dh.dhOnlist = true

structure HashOk (ip : Inode) (blks : Nat) (ents : List Ent) : Prop where
  fmt : ip.ofsfmt = true → ip.iDirhash = none
  live : ∀ dh, ip.iDirhash = some dh → dh.dhNull = false → Live dh blks ents

theorem Live.of_sameTable {dh' : Dirhash} (htable : TableOk dh ents) (honlist : dh.dhOnlist = true)
    (h : SameTable dh dh') (hfree : FreeOk dh' blks ents) : Live dh' blks ents := by
  obtain ⟨_, _, rfl⟩ := h
  exact ⟨⟨htable.holds, htable.hused, htable.room⟩, hfree, honlist⟩

theorem Live.of_same {dh' : Dirhash} (h : Live dh blks ents) (hs : Same dh dh') : Live dh' blks ents := by
  obtain ⟨_, _, _, rfl⟩ := hs
  exact ⟨⟨h.table.holds, h.table.hused, h.table.room⟩,
    ⟨h.free.dirblks, h.free.nblk, h.free.free, h.free.classes⟩, h.onlist⟩

/-- Nothing of the inode changes but its hash. -/
def OnlyHash (ip ip' : Inode) : Prop := ip' = { ip with iDirhash := ip'.iDirhash }

theorem OnlyHash.size {ip' : Inode} (h : OnlyHash ip ip') : ip'.size = ip.size := by rw [h]

theorem OnlyHash.ofsfmt {ip' : Inode} (h : OnlyHash ip ip') : ip'.ofsfmt = ip.ofsfmt := by rw [h]

theorem hashOk_free (ip : Inode) (blks : Nat) (ents : List Ent) : HashOk (ufsdirhashFree ip) blks ents :=
  ⟨fun _ => rfl, nofun⟩

theorem HashOk.keep (h : HashOk ip blks ents) (hip : ip.iDirhash = some dh) {dh' : Dirhash}
    (hlive : Live dh' blks ents') : HashOk { ip with iDirhash := some dh' } blks ents' := by
  refine ⟨fun hf => ?_, fun d hd _ => ?_⟩
  · rw [h.fmt hf] at hip
    cases hip
  · obtain rfl := Option.some.inj hd
    exact hlive

/-- A function that does nothing unless there is a hash in place. -/
theorem HashOk.locked {blks' : Nat} (h : HashOk ip blks ents) {use : Dirhash → Except Fault Inode}
    (huse : ∀ dh, ip.iDirhash = some dh → dh.dhNull = false → Live dh blks ents →
      ∃ ip', use dh = .ok ip' ∧ HashOk ip' blks' ents' ∧ OnlyHash ip ip') :
    ∃ ip', Ufs.locked ip .ok use = .ok ip' ∧ HashOk ip' blks' ents' ∧ OnlyHash ip ip' := by
  unfold Ufs.locked
  rcases hip : ip.iDirhash with _ | dh
  · refine ⟨ip, rfl, ⟨fun _ => hip, fun dh hdh => ?_⟩, rfl⟩
    rw [hip] at hdh
    cases hdh
  · dsimp only
    by_cases hnull : dh.dhNull = true
    · exact ⟨ufsdirhashFree ip, if_pos hnull, hashOk_free .., rfl⟩
    · rw [if_neg hnull]
      have hn : dh.dhNull = false := Bool.eq_false_iff.mpr hnull
      exact huse dh hip hn (h.live dh hip hn)

theorem div_lt_mul (h : o / dirblksiz < blks) : o < blks * dirblksiz := by
  unfold dirblksiz at *
  omega

/-! ## The changes -/

theorem HashOk.add (h : HashOk ip blks ents) (hok : DirOk blks ((o, name) :: ents)) :
    ∃ ip', ufsdirhashAdd ip name o = .ok ip' ∧ HashOk ip' blks ((o, name) :: ents) ∧ OnlyHash ip ip' := by
  refine h.locked fun dh hip hnull hlive => ?_
  have hblk := hok.lt _ (List.mem_cons_self ..)
  rw [if_pos (by rw [hlive.free.dirblks]; exact div_lt_mul hblk)]
  by_cases hfull : dh.dhHused ≥ (dh.dhHlen * 3 / 4 : Nat)
  · exact ⟨_, if_pos hfull, hashOk_free .., rfl⟩
  · rw [if_neg hfull]
    obtain ⟨slot, hs, hprobe, -, hfree, hreach⟩ := hlive.table.probe_free (fun s => !isFull (dh.dhHash s))
      (fun i hi => by rw [hi]; rfl) (fun i hi w hw => by rw [hw] at hi; cases hi) name
    rw [hprobe]
    have hnew : ∀ k, (o, k) ∉ ents := fun k hk =>
      (List.nodup_cons.mp hok.offs).1 (List.mem_map.mpr ⟨(o, k), hk, rfl⟩)
    have htable := hlive.table.insert hs hfree hreach hnew (by omega)
    obtain ⟨dh', heq, hsame, hfin⟩ := (hlive.free.table (Function.update dh.dhHash slot (.full o))
      (if dh.dhHash slot = .empty then dh.dhHused + 1 else dh.dhHused)).add hblk (hok.fits _)
    refine ⟨_, ?_, h.keep hip (.of_sameTable htable hlive.onlist hsame hfin), rfl⟩
    dsimp only
    rw [heq]
    rfl

theorem HashOk.remove (h : HashOk ip blks ents) (hok : DirOk blks ents) (hmem : (o, name) ∈ ents) :
    ∃ ip', ufsdirhashRemove ip name o = .ok ip' ∧ HashOk ip' blks (ents.erase (o, name)) ∧ OnlyHash ip ip' := by
  refine h.locked fun dh hip hnull hlive => ?_
  have hblk := hok.lt _ hmem
  rw [if_pos (by rw [hlive.free.dirblks]; exact div_lt_mul hblk)]
  obtain ⟨slot, hs, hfind, hfull⟩ := hlive.table.findslot hmem
  obtain ⟨hash, hused, hdel, htable⟩ := hlive.table.delslot hs hfull hmem hok.offs
  obtain ⟨dh', heq, hsame, hfin⟩ := (hlive.free.table hash hused).remove hblk hmem
  refine ⟨_, ?_, h.keep hip (.of_sameTable htable hlive.onlist hsame hfin), rfl⟩
  rw [hfind]
  dsimp only [bind, Except.bind]
  rw [hdel]
  dsimp only
  rw [heq]

theorem HashOk.move {newoff : Nat} (h : HashOk ip blks ents) (hok : DirOk blks ents) (hmem : (o, name) ∈ ents)
    (hok' : DirOk blks ((newoff, name) :: ents.erase (o, name))) (hsame : newoff / dirblksiz = o / dirblksiz) :
    ∃ ip', ufsdirhashMove ip name o newoff = .ok ip'
      ∧ HashOk ip' blks ((newoff, name) :: ents.erase (o, name)) ∧ OnlyHash ip ip' := by
  refine h.locked fun dh hip hnull hlive => ?_
  have hblk := hok.lt _ hmem
  have hblk' := hok'.lt _ (List.mem_cons_self ..)
  rw [if_pos (by rw [hlive.free.dirblks]; exact ⟨div_lt_mul hblk, div_lt_mul hblk'⟩)]
  obtain ⟨slot, hs, hfind, hfull⟩ := hlive.table.findslot hmem
  have hnew : ∀ k, (newoff, k) ∈ ents → newoff = o := by
    intro k hk
    by_contra hne
    refine (List.nodup_cons.mp hok'.offs).1 (List.mem_map.mpr ⟨(newoff, k), ?_, rfl⟩)
    exact (List.mem_erase_of_ne fun he => hne (congrArg Prod.fst he)).mpr hk
  have hfree := hlive.free.move hmem hsame
  refine ⟨_, ?_, h.keep hip ⟨hlive.table.move hs hfull hmem hok.offs hnew,
    ⟨hfree.dirblks, hfree.nblk, hfree.free, hfree.classes⟩, hlive.onlist⟩, rfl⟩
  rw [hfind]
  rfl

theorem HashOk.newblk (h : HashOk ip blks ents) (hok : DirOk blks ents) :
    ∃ ip', ufsdirhashNewblk ip (blks * dirblksiz) = .ok ip' ∧ HashOk ip' (blks + 1) ents ∧ OnlyHash ip ip' := by
  refine h.locked fun dh hip hnull hlive => ?_
  rw [if_pos (by rw [hlive.free.dirblks])]
  have hblk : blks * dirblksiz / dirblksiz = blks := Nat.mul_div_cancel _ (by decide)
  simp only [hblk]
  by_cases hn : blks ≥ dh.dhNblk
  · exact ⟨_, if_pos hn, hashOk_free .., rfl⟩
  · rw [if_neg hn]
    have hfree := hlive.free.newblk (Nat.lt_of_not_le hn) hok.lt
    refine ⟨_, rfl, ⟨fun hf => ?_, fun d hd _ => ?_⟩, rfl⟩
    · rw [h.fmt hf] at hip
      cases hip
    · obtain rfl := Option.some.inj hd
      exact ⟨⟨hlive.table.holds, hlive.table.hused, hlive.table.room⟩, hfree, hlive.onlist⟩

theorem howmany_mul (n : Nat) : howmany (n * dirblksiz) dirblksiz = n := by
  unfold howmany dirblksiz
  omega

theorem HashOk.dirtrunc {n : Nat} (h : HashOk ip blks ents) (hn : n ≤ blks)
    (hlt : ∀ e ∈ ents, e.1 / dirblksiz < n) :
    ∃ ip', ufsdirhashDirtrunc ip (n * dirblksiz) = .ok ip' ∧ HashOk ip' n ents ∧ OnlyHash ip ip' := by
  refine h.locked fun dh hip hnull hlive => ?_
  rw [if_pos (by rw [hlive.free.dirblks]; exact Nat.mul_le_mul_right _ hn)]
  simp only [howmany_mul]
  by_cases hsmall : n < dh.dhNblk / 8 ∧ dh.dhNarrays > 1
  · exact ⟨_, if_pos hsmall, hashOk_free .., rfl⟩
  · obtain ⟨hused, hfirst, hfree⟩ := hlive.free.dirtrunc hn hlt rfl
    rw [if_neg hsmall, if_neg hused, if_neg hfirst]
    refine ⟨_, rfl, ⟨fun hf => ?_, fun d hd _ => ?_⟩, rfl⟩
    · rw [h.fmt hf] at hip
      cases hip
    · obtain rfl := Option.some.inj hd
      exact ⟨⟨hlive.table.holds, hlive.table.hused, hlive.table.room⟩, hfree, hlive.onlist⟩

/-! ## Building -/

/-- One entry more goes into a table that is not too full. -/
theorem build_add (hlive : TableOk dh ents) (hfree : FreeOk dh blks ents) (hok : DirOk blks ((o, name) :: ents))
    (hroom : dh.dhHused + 1 < dh.dhHlen) :
    ∃ slot dh', probe dh.dhHlen (fun s => isEmpty (dh.dhHash s)) dh.dhHlen (ufsdirhashHash dh name) = some slot
      ∧ ufsdirhashAdjfree { dh with
          dhHused := dh.dhHused + 1
          dhHash := Function.update dh.dhHash slot (.full o) } o (-(dirsiz name.length : Int)) = .ok dh'
      ∧ TableOk dh' ((o, name) :: ents) ∧ FreeOk dh' blks ((o, name) :: ents)
      ∧ dh'.dhHused = dh.dhHused + 1 ∧ dh'.dhHlen = dh.dhHlen ∧ dh'.dhNull = dh.dhNull := by
  have hnew : ∀ k, (o, k) ∉ ents := fun k hk =>
    (List.nodup_cons.mp hok.offs).1 (List.mem_map.mpr ⟨(o, k), hk, rfl⟩)
  obtain ⟨slot, hs, hprobe, hempty, hfull, hreach⟩ := hlive.probe_free (fun s => isEmpty (dh.dhHash s))
    (fun i hi => isEmpty_iff.mpr hi) (fun i hi w hw => by rw [hw] at hi; cases hi) name
  have htable := hlive.insert hs hfull hreach hnew hroom
  rw [if_pos (isEmpty_iff.mp hempty)] at htable
  obtain ⟨dh', heq, ⟨bf, ff, rfl⟩, hfin⟩ := (hfree.table (Function.update dh.dhHash slot (.full o))
    (dh.dhHused + 1)).add (hok.lt _ (List.mem_cons_self ..)) (hok.fits _)
  exact ⟨slot, _, hprobe, heq, ⟨htable.holds, htable.hused, htable.room⟩, hfin, rfl, rfl, rfl⟩

theorem DirOk.of_append {done : List Ent} (rest : List Ent) (h : DirOk blks ents) (hperm : (done ++ rest).Perm ents) :
    DirOk blks done := by
  have hsub : done.Sublist (done ++ rest) := List.sublist_append_left ..
  refine ⟨h.pos, ?_, ?_, fun e he => h.lt e (hperm.subset (hsub.subset he)),
    fun e he => h.len e (hperm.subset (hsub.subset he)), fun b => ?_⟩
  · exact ((hperm.map Prod.fst).nodup_iff.mpr h.offs).sublist (hsub.map _)
  · exact ((hperm.map Prod.snd).nodup_iff.mpr h.names).sublist (hsub.map _)
  · have hfits := h.fits b
    rw [← usedIn_perm hperm, usedIn_append] at hfits
    omega

/-- The loop over the entries at `os`, those before being `done`. Every entry takes 12
bytes at least, so that there are slots enough. -/
theorem buildLoop_spec (env : BuildEnv) (ip : Inode)
    (hok : DirOk blks ents) {os : List Nat} : ∀ (fuel pos : Nat) (done : List Ent) (dh : Dirhash),
    Tiles false m pos ip.size os → (∀ o ∈ os, InBlock m o) → (done ++ liveEnts false m os).Perm ents →
    TableOk dh done → FreeOk dh blks done → dh.dhNull = false → dh.dhHused * 12 ≤ pos →
    ip.size < 12 * dh.dhHlen → ip.size - pos < fuel →
    ∃ r, buildLoop env m ip fuel pos dh = .ok r
      ∧ ∀ dh', r = some dh' → TableOk dh' ents ∧ FreeOk dh' blks ents ∧ dh'.dhNull = false := by
  induction os with
  | nil =>
    intro fuel pos done dh htiles _ hperm htable hfree hnull _ _ hf
    obtain rfl : pos = ip.size := htiles
    rw [liveEnts, List.filter_nil, List.map_nil, List.append_nil] at hperm
    cases fuel with
    | zero => omega
    | succ fuel =>
      rw [buildLoop, if_neg (Nat.lt_irrefl _)]
      refine ⟨_, rfl, fun dh' hdh' => ?_⟩
      obtain rfl := Option.some.inj hdh'
      exact ⟨htable.congr fun e => hperm.mem_iff, hfree.perm hperm, hnull⟩
  | cons p os ih =>
    intro fuel pos done dh htiles hin hperm htable hfree hnull hcount hbig hf
    have hrec := htiles.reclen_pos (List.mem_cons_self ..)
    have hblk : p % dirblksiz + dReclen m p ≤ dirblksiz := hin p (List.mem_cons_self ..)
    obtain ⟨rfl, h4, hsiz, hrest⟩ := htiles
    have hle := hrest.le
    have hin' : ∀ o ∈ os, InBlock m o := fun o ho => hin o (List.mem_cons_of_mem _ ho)
    cases fuel with
    | zero => omega
    | succ fuel =>
      rw [buildLoop, if_pos (by omega)]
      by_cases hread : p % ip.iosize = 0 ∧ env.bufatoff p = true
      · rw [if_pos hread]
        exact ⟨none, rfl, by simp⟩
      · rw [if_neg hread, if_neg (by omega)]
        rw [liveEnts_cons] at hperm
        by_cases hino : dIno m p = 0
        · rw [if_pos hino, List.nil_append] at hperm
          rw [if_neg (not_not_intro hino)]
          exact ih fuel _ done dh hrest hin' hperm htable hfree hnull (by omega) hbig (by omega)
        · rw [if_neg hino] at hperm
          rw [if_pos hino]
          have hperm' : ((p, dName false m p) :: done ++ liveEnts false m os).Perm ents := by
            refine List.Perm.trans ?_ hperm
            exact List.perm_middle.symm
          have hmin := dirsiz_ge (dNamlen false m p)
          obtain ⟨slot, dh', hprobe, hadj, htable', hfree', hused', hhlen', hnull'⟩ :=
            build_add htable hfree (hok.of_append _ hperm') (by omega)
          rw [dName_length] at hadj
          simp only [hprobe, hadj, bind, Except.bind]
          exact ih fuel _ _ dh' hrest hin' hperm' htable' hfree' (hnull'.trans hnull) (by omega) (by omega) (by omega)

/-- What `ufsdirhash_build` leaves: no hash, or one that is that of the directory. -/
structure Built (ip : Inode) (blks : Nat) (ents : List Ent) (r : Int) (ip' : Inode) : Prop where
  ok : HashOk ip' blks ents
  only : OnlyHash ip ip'
  zero : r = 0 → ∃ dh, ip'.iDirhash = some dh ∧ dh.dhNull = false

theorem built_gone (h : HashOk ip blks ents) : Built ip blks ents (-1) ip :=
  ⟨h, rfl, fun h0 => absurd h0 (by decide)⟩

theorem built_free (ip : Inode) (blks : Nat) (ents : List Ent) : Built ip blks ents (-1) (ufsdirhashFree ip) :=
  ⟨hashOk_free .., rfl, fun h0 => absurd h0 (by decide)⟩

/-- There are slots enough for the entries of a directory of this size. -/
theorem nslots_big {size : Nat} (h : dirblksiz ≤ size) :
    0 < howmany ((size / dirsiz 1 * 3 + 1) / 2) dhNblkoff
      ∧ size < 12 * (howmany ((size / dirsiz 1 * 3 + 1) / 2) dhNblkoff * dhNblkoff) := by
  unfold howmany dhNblkoff dirsiz
  unfold dirblksiz at h
  omega

theorem buildNew_spec (ip : Inode) (env : BuildEnv) (hnone : ip.iDirhash = none) (hfmt : ip.ofsfmt = false)
    (hsize : ip.size = blks * dirblksiz) (hd : DirHolds false m blks ents) :
    ∃ r ip', buildNew env m ip = .ok (r, ip') ∧ Built ip blks ents r ip' := by
  have hgone : HashOk ip blks ents := ⟨fun _ => hnone, fun dh hdh => by rw [hnone] at hdh; cases hdh⟩
  have hblks := hd.pos
  have hge : dirblksiz ≤ ip.size := by
    rw [hsize]
    exact Nat.le_mul_of_pos_left _ hblks
  have hblocks : howmany ip.size dirblksiz = blks := by rw [hsize, howmany_mul]
  obtain ⟨hpos, hbig⟩ := nslots_big hge
  unfold buildNew
  split
  · exact ⟨-1, ip, rfl, built_gone hgone⟩
  · rw [if_neg (Nat.not_lt.mpr hge), hblocks]
    dsimp only
    split
    · exact ⟨-1, ip, rfl, built_gone hgone⟩
    · split
      · exact ⟨-1, ip, rfl, built_gone hgone⟩
      · generalize howmany ((ip.size / dirsiz 1 * 3 + 1) / 2) dhNblkoff = narrays at hpos hbig
        obtain ⟨r, heq, hr⟩ := buildLoop_spec env ip hd.ok (ip.size + 1) 0 []
          (newDirhash env narrays ((blks * 3 + 1) / 2) blks) (by rw [hsize]; exact hd.wf.tiles)
          (fun o ho => hd.wf.inBlock ho) hd.perm (tableOk_new env _ _ hpos) (freeOk_new env _ hblks (by omega))
          rfl (Int.le_refl 0) hbig (by omega)
        rw [heq]
        cases r with
        | none => exact ⟨-1, _, rfl, built_free ..⟩
        | some dh =>
          obtain ⟨ht, hf, hnull⟩ := hr dh rfl
          refine ⟨0, _, rfl, ⟨fun hold => ?_, fun dh' hdh' _ => ?_⟩, rfl, fun _ => ⟨_, rfl, hnull⟩⟩
          · rw [hfmt] at hold
            cases hold
          · obtain rfl := Option.some.inj hdh'
            exact ⟨⟨ht.holds, ht.hused, ht.room⟩, ⟨hf.dirblks, hf.nblk, hf.free, hf.classes⟩, rfl⟩

theorem HashOk.build (env : BuildEnv) (h : HashOk ip blks ents) (hsize : ip.size = blks * dirblksiz)
    (hd : DirHolds ip.ofsfmt m blks ents) :
    ∃ r ip', ufsdirhashBuild env m ip = .ok (r, ip') ∧ Built ip blks ents r ip' := by
  unfold ufsdirhashBuild
  rcases hip : ip.iDirhash with _ | dh
  · dsimp only
    split
    · exact ⟨-1, ip, rfl, built_gone h⟩
    · rename_i hcheck
      have hfmt : ip.ofsfmt = false := Bool.eq_false_iff.mpr fun hf => hcheck (.inr hf)
      exact buildNew_spec ip env hip hfmt hsize (hfmt ▸ hd)
  · dsimp only
    have hfmt : ip.ofsfmt = false := Bool.eq_false_iff.mpr fun hf => by
      rw [h.fmt hf] at hip
      cases hip
    split
    · exact ⟨-1, _, rfl, built_free ..⟩
    · split
      · rename_i hnull
        exact ⟨0, ip, rfl, h, rfl, fun _ => ⟨dh, hip, hnull⟩⟩
      · obtain ⟨r, ip', heq, hb⟩ := buildNew_spec (ufsdirhashFree ip) env rfl hfmt hsize (hfmt ▸ hd)
        exact ⟨r, ip', heq, hb.ok, hb.only, hb.zero⟩

/-! ## Runs -/

/-- A directory, by its entries in use and its blocks, and its inode. -/
structure Sys where
  ents : List Ent
  blks : Nat
  ip : Inode

/-- The calls. The bytes `m` are those of the directory at the time of the call. -/
inductive Op where
  | build (env : BuildEnv) (m : DirMem)
  | free
  | lookup (env : LookEnv) (m : DirMem) (name : Name) (prevoffp : Bool)
  | findfree (m : DirMem) (err : Bool) (slotneeded : Nat)
  | add (name : Name) (offset : Nat)
  | remove (name : Name) (offset : Nat)
  | move (name : Name) (oldoff newoff : Nat)
  | newblk
  | dirtrunc (blks : Nat)
  | recycle

/-- A call, and the change to the directory that it mirrors. -/
def step (s : Sys) : Op → Except Fault Sys
  | .build env m => do
    let r ← ufsdirhashBuild env m s.ip
    .ok { s with ip := r.2 }
  | .free => .ok { s with ip := ufsdirhashFree s.ip }
  | .lookup env m name prevoffp => do
    let r ← ufsdirhashLookup env m s.ip name prevoffp
    .ok { s with ip := r.2 }
  | .findfree m err slotneeded => do
    let r ← ufsdirhashFindfree m err s.ip slotneeded
    .ok { s with ip := r.2 }
  | .add name offset => do
    let ip ← ufsdirhashAdd s.ip name offset
    .ok { s with ip := ip, ents := (offset, name) :: s.ents }
  | .remove name offset => do
    let ip ← ufsdirhashRemove s.ip name offset
    .ok { s with ip := ip, ents := s.ents.erase (offset, name) }
  | .move name oldoff newoff => do
    let ip ← ufsdirhashMove s.ip name oldoff newoff
    .ok { s with ip := ip, ents := (newoff, name) :: s.ents.erase (oldoff, name) }
  | .newblk => do
    let ip ← ufsdirhashNewblk { s.ip with size := s.ip.size + dirblksiz } (s.blks * dirblksiz)
    .ok { s with ip := ip, blks := s.blks + 1 }
  | .dirtrunc blks => do
    let ip ← ufsdirhashDirtrunc s.ip (blks * dirblksiz)
    .ok { s with ip := { ip with size := blks * dirblksiz }, blks := blks }
  | .recycle => .ok { s with ip := s.ip.recycle 1 }

/-- The call mirrors a change that leaves a directory, or reads the directory as it is. An entry
moves only within its block; blocks are cut off only where there are no entries. -/
def Mirrors (s : Sys) : Op → Prop
  | .build _ m => DirHolds s.ip.ofsfmt m s.blks s.ents
  | .free => True
  | .lookup _ m _ _ => DirHolds s.ip.ofsfmt m s.blks s.ents
  | .findfree m _ slotneeded =>
    DirHolds s.ip.ofsfmt m s.blks s.ents ∧ 0 < slotneeded ∧ slotneeded ≤ dhNfstats * diralign
  | .add name offset => DirOk s.blks ((offset, name) :: s.ents)
  | .remove name offset => (offset, name) ∈ s.ents
  | .move name oldoff newoff => (oldoff, name) ∈ s.ents ∧ newoff / dirblksiz = oldoff / dirblksiz
    ∧ DirOk s.blks ((newoff, name) :: s.ents.erase (oldoff, name))
  | .newblk => True
  | .dirtrunc blks => 0 < blks ∧ blks ≤ s.blks ∧ ∀ e ∈ s.ents, e.1 / dirblksiz < blks
  | .recycle => True

structure SysOk (s : Sys) : Prop where
  dir : DirOk s.blks s.ents
  size : s.ip.size = s.blks * dirblksiz
  hash : HashOk s.ip s.blks s.ents

theorem HashOk.recycle (h : HashOk ip blks ents) (n : Nat) : HashOk (ip.recycle n) blks ents := by
  refine ⟨fun hf => by simp only [Inode.recycle, h.fmt hf, Option.map_none], fun dh hdh hnull => ?_⟩
  obtain ⟨dh₀, hip, rfl⟩ := Option.map_eq_some_iff.mp hdh
  by_cases hnull₀ : dh₀.dhNull = true
  · rw [recycleMany_null hnull₀, hnull₀] at hnull
    cases hnull
  · have hn : dh₀.dhNull = false := Bool.eq_false_iff.mpr hnull₀
    rcases recycleMany_spec hn n with ⟨hgone, -⟩ | ⟨score, heq⟩
    · rw [hgone] at hnull
      cases hnull
    · rw [heq]
      exact (h.live dh₀ hip hn).of_same ⟨dh₀.dhSeqopt, dh₀.dhSeqoff, score, rfl⟩

/-- What a search answers in any state of the hash. -/
theorem HashOk.lookup (env : LookEnv) (h : HashOk ip blks ents) (hsize : ip.size = blks * dirblksiz)
    (hd : DirHolds ip.ofsfmt m blks ents) (name : Name) (prevoffp : Bool) :
    ∃ r ip', ufsdirhashLookup env m ip name prevoffp = .ok (r, ip')
      ∧ HashOk ip' blks ents ∧ OnlyHash ip ip'
      ∧ ((r = .ejustreturn ∧ ∀ dh, ip.iDirhash = some dh → dh.dhNull = false →
          (∃ k, env.bufatoff k = true) ∨ ∃ k, 0 < env.steal k)
        ∨ ∃ dh, Answer env m ip dh ents name prevoffp r ip') := by
  rcases hip : ip.iDirhash with _ | dh
  · refine ⟨.ejustreturn, ip, by rw [ufsdirhashLookup, hip], h, rfl, .inl ⟨rfl, ?_⟩⟩
    simp
  · have hfmt : ip.ofsfmt = false := Bool.eq_false_iff.mpr fun hf => by
      rw [h.fmt hf] at hip
      cases hip
    by_cases hnull : dh.dhNull = true
    · refine ⟨.ejustreturn, ufsdirhashFree ip, ?_, hashOk_free .., rfl, .inl ⟨rfl, fun dh' hdh' hn => ?_⟩⟩
      · rw [ufsdirhashLookup, hip]
        exact if_pos hnull
      · obtain rfl := Option.some.inj hdh'
        rw [hnull] at hn
        cases hn
    · have hn : dh.dhNull = false := Bool.eq_false_iff.mpr hnull
      have hlive := h.live dh hip hn
      rw [hfmt] at hd
      obtain ⟨r, ip', heq, hans⟩ := lookup_spec env hd hsize hip hn hlive.onlist hlive.table name prevoffp
      refine ⟨r, ip', heq, ?_, ?_, .inr ⟨dh, hans⟩⟩
      · rcases hans.inode with rfl | ⟨dh', hsame, rfl⟩
        · exact hashOk_free ..
        · exact h.keep hip (hlive.of_same hsame)
      · rcases hans.inode with rfl | ⟨dh', -, rfl⟩
        · rfl
        · rfl

/-- Where there is no hash in place, `ufsdirhash_findfree` returns -1; else it does what `findfree_spec` says. -/
theorem HashOk.findfree (h : HashOk ip blks ents) (hd : DirHolds ip.ofsfmt m blks ents) {need : Nat} (hpos : 0 < need)
    (hle : need ≤ dhNfstats * diralign) (err : Bool) :
    ∃ r ip', ufsdirhashFindfree m err ip need = .ok (r, ip') ∧ HashOk ip' blks ents ∧ OnlyHash ip ip'
      ∧ ∀ off cnt, r = some (off, cnt) →
        ∃ b < blks, ∃ mid, Region ip.ofsfmt m b off cnt mid ∧ need ≤ nfree ip.ofsfmt m mid := by
  unfold ufsdirhashFindfree
  rcases hip : ip.iDirhash with _ | dh
  · exact ⟨none, ip, by rw [Ufs.locked, hip], h, rfl, nofun⟩
  · by_cases hnull : dh.dhNull = true
    · refine ⟨none, ufsdirhashFree ip, ?_, hashOk_free .., rfl, nofun⟩
      rw [Ufs.locked, hip]
      exact if_pos hnull
    · have hn : dh.dhNull = false := Bool.eq_false_iff.mpr hnull
      have hfmt : ip.ofsfmt = false := Bool.eq_false_iff.mpr fun hf => by
        rw [h.fmt hf] at hip
        cases hip
      rw [hfmt] at hd ⊢
      rcases findfree_spec (h.live dh hip hn).free hd hip hn hpos hle err with
        ⟨b, hb, off, cnt, mid, heq, -, hregion, hroom⟩ | ⟨heq, -⟩
      · refine ⟨_, ip, heq, h, rfl, fun off' cnt' hr => ?_⟩
        obtain ⟨rfl, rfl⟩ := Prod.mk.inj (Option.some.inj hr)
        exact ⟨b, hb, mid, hregion, hroom⟩
      · exact ⟨_, ip, heq, h, rfl, nofun⟩

theorem DirOk.erase (h : DirOk blks ents) (hmem : (o, name) ∈ ents) : DirOk blks (ents.erase (o, name)) :=
  h.of_append [(o, name)] (List.perm_append_singleton _ _ |>.trans (List.perm_cons_erase hmem).symm)

/-- No call that mirrors a change fails, and the hash stays that of the directory. -/
theorem step_ok {s : Sys} (h : SysOk s) (op : Op) (hop : Mirrors s op) : ∃ s', step s op = .ok s' ∧ SysOk s' := by
  cases op with
  | build env m =>
    obtain ⟨r, ip', heq, hb⟩ := h.hash.build env h.size hop
    refine ⟨{ s with ip := ip' }, by rw [step, heq]; rfl, h.dir, hb.only.size.trans h.size, hb.ok⟩
  | free => exact ⟨_, rfl, h.dir, h.size, hashOk_free ..⟩
  | lookup env m name prevoffp =>
    obtain ⟨r, ip', heq, hok, hsize, -⟩ := h.hash.lookup env h.size hop name prevoffp
    exact ⟨{ s with ip := ip' }, by rw [step, heq]; rfl, h.dir, hsize.size.trans h.size, hok⟩
  | findfree m err need =>
    obtain ⟨r, ip', heq, hok, hsize, -⟩ := h.hash.findfree hop.1 hop.2.1 hop.2.2 err
    exact ⟨{ s with ip := ip' }, by rw [step, heq]; rfl, h.dir, hsize.size.trans h.size, hok⟩
  | add name offset =>
    obtain ⟨ip', heq, hok, hsize⟩ := h.hash.add hop
    exact ⟨{ s with ip := ip', ents := (offset, name) :: s.ents }, by rw [step, heq]; rfl, hop,
      hsize.size.trans h.size, hok⟩
  | remove name offset =>
    obtain ⟨ip', heq, hok, hsize⟩ := h.hash.remove h.dir hop
    exact ⟨{ s with ip := ip', ents := s.ents.erase (offset, name) }, by rw [step, heq]; rfl,
      h.dir.erase hop, hsize.size.trans h.size, hok⟩
  | move name oldoff newoff =>
    obtain ⟨hmem, hsame, hok'⟩ := hop
    obtain ⟨ip', heq, hok, hsize⟩ := h.hash.move h.dir hmem hok' hsame
    exact ⟨{ s with ip := ip', ents := (newoff, name) :: s.ents.erase (oldoff, name) }, by rw [step, heq]; rfl,
      hok', hsize.size.trans h.size, hok⟩
  | newblk =>
    have hgrown : HashOk { s.ip with size := s.ip.size + dirblksiz } s.blks s.ents := ⟨h.hash.fmt, h.hash.live⟩
    obtain ⟨ip', heq, hok, hsize⟩ := hgrown.newblk h.dir
    refine ⟨{ s with ip := ip', blks := s.blks + 1 }, by rw [step, heq]; rfl,
      ⟨Nat.succ_pos _, h.dir.offs, h.dir.names, fun e he => Nat.lt_succ_of_lt (h.dir.lt e he), h.dir.len, h.dir.fits⟩,
      ?_, hok⟩
    rw [hsize.size, Nat.add_mul, Nat.one_mul, ← h.size]
  | dirtrunc blks =>
    obtain ⟨hpos, hle, hlt⟩ := hop
    obtain ⟨ip', heq, hok, -⟩ := h.hash.dirtrunc hle hlt
    exact ⟨{ s with ip := { ip' with size := blks * dirblksiz }, blks := blks }, by rw [step, heq]; rfl,
      ⟨hpos, h.dir.offs, h.dir.names, hlt, h.dir.len, h.dir.fits⟩, rfl, ⟨hok.fmt, hok.live⟩⟩
  | recycle => exact ⟨_, rfl, h.dir, h.size, h.hash.recycle 1⟩

/-- A run of calls that mirror the directory's changes. -/
abbrev DirhashRun : Sys → Sys → Prop := Runs (fun s op => (step s op).toOption) Mirrors

theorem run_ok {s s' : Sys} (h : SysOk s) (hrun : DirhashRun s s') : SysOk s' := by
  refine Runs.invariant (fun s op s' hop hstep hs => ?_) hrun h
  obtain ⟨t, heq, ht⟩ := step_ok hs op hop
  rw [heq] at hstep
  obtain rfl : t = s' := Option.some.inj hstep
  exact ht

/-- A directory without a hash. -/
theorem sysOk_init (hnone : ip.iDirhash = none) (hsize : ip.size = blks * dirblksiz)
    (hd : DirHolds ip.ofsfmt m blks ents) : SysOk ⟨ents, blks, ip⟩ :=
  ⟨hd.ok, hsize, ⟨fun _ => hnone, fun dh hdh => by rw [hnone] at hdh; cases hdh⟩⟩

/-- A search that does not give up agrees with a linear scan, gives up only if there is no hash, a read
fails or the hash is taken away meanwhile, and ends; so does every other call, for the table has a
slot that is empty. -/
theorem lookup_agrees_with_scan (hnone : ip.iDirhash = none) (hsize : ip.size = blks * dirblksiz)
    (hd : DirHolds ip.ofsfmt m blks ents) {s : Sys} (hrun : DirhashRun ⟨ents, blks, ip⟩ s) :
    (∀ op, Mirrors s op → ∃ s', step s op = .ok s')
    ∧ (∀ dh, s.ip.iDirhash = some dh → dh.dhNull = false →
        dh.dhHused = used dh.dhHash dh.dhHlen ∧ dh.dhHused < dh.dhHlen)
    ∧ ∀ env m' name prevoffp, DirHolds s.ip.ofsfmt m' s.blks s.ents →
        ∃ r ip', ufsdirhashLookup env m' s.ip name prevoffp = .ok (r, ip')
          ∧ (r ≠ .ejustreturn → match linearScan s.ip.ofsfmt m' s.blks name with
              | some o => ∃ prevoff, r = .found o prevoff
              | none => r = .enoent)
          ∧ (r = .ejustreturn → (∀ dh, s.ip.iDirhash = some dh → dh.dhNull = true)
              ∨ (∃ k, env.bufatoff k = true) ∨ ∃ k, 0 < env.steal k) := by
  have hok := run_ok (sysOk_init hnone hsize hd) hrun
  refine ⟨fun op hop => ?_, fun dh hdh hnull => ?_, fun env m' name prevoffp hd' => ?_⟩
  · obtain ⟨s', heq, -⟩ := step_ok hok op hop
    exact ⟨s', heq⟩
  · have hlive := hok.hash.live dh hdh hnull
    exact ⟨hlive.table.hused, hlive.table.room⟩
  · obtain ⟨r, ip', heq, -, -, hans⟩ := hok.hash.lookup env hok.size hd' name prevoffp
    obtain ⟨hsome, hscan⟩ := hd'.linearScan_eq name
    refine ⟨r, ip', heq, fun hr => ?_, fun hr => ?_⟩
    · rcases hans with ⟨hbad, -⟩ | ⟨dh, hans⟩
      · exact absurd hbad hr
      · rcases hans.agrees with hbad | ⟨rfl, hno⟩ | ⟨o, prevoff, rfl, hmem, -⟩
        · exact absurd hbad hr
        · rw [hscan.mpr hno]
        · rw [(hsome o).mpr hmem]
          exact ⟨prevoff, rfl⟩
    · rcases hans with ⟨-, hwhy⟩ | ⟨dh, hans⟩
      · by_cases hall : ∀ dh, s.ip.iDirhash = some dh → dh.dhNull = true
        · exact .inl hall
        · push Not at hall
          obtain ⟨dh, hdh, hnull⟩ := hall
          exact .inr (hwhy dh hdh (Bool.eq_false_iff.mpr hnull))
      · exact .inr (hans.gives_up hr)

/-- A directory of one block, with `.` and `..`. -/
def dotDir : DirMem := fun i =>
  [2, 0, 0, 0, 12, 0, 4, 1, 46, 0, 0, 0, 2, 0, 0, 0, 244, 1, 4, 2, 46, 46].getD i 0

theorem dotDir_holds : DirHolds false dotDir 1 [(0, [46]), (12, [46, 46])] :=
  ⟨by decide, by decide, .of_eq (by decide), by decide⟩

/-- Its inode, in a file system with large blocks, without a hash. -/
def dotInode : Inode where
  iDirhash := none
  size := 512
  iEffnlink := 2
  ofsfmt := false
  iosize := 8192

def dotEnv : BuildEnv where
  mindirhashsize := 0
  dirhashmaxmem := 2097152
  dirhashmem := 0
  sizeofDirhash := 400
  sizeofPointer := 8
  recycle := true
  malloc := true
  addr := [64, 17, 32, 0, 0, 128, 255, 255]
  bufatoff := fun _ => false

theorem dotInode_ok : HashOk dotInode 1 [(0, [46]), (12, [46, 46])] := ⟨fun _ => rfl, nofun⟩

/-- The hash of that directory is built. -/
theorem dotDir_build : ∃ s, DirhashRun ⟨[(0, [46]), (12, [46, 46])], 1, dotInode⟩ s
    ∧ (∃ dh, s.ip.iDirhash = some dh ∧ dh.dhNull = false) ∧ s.ip.ofsfmt = false ∧ s.blks = 1
    ∧ s.ents = [(0, [46]), (12, [46, 46])] := by
  obtain ⟨r, ip', heq, hb⟩ := HashOk.build dotEnv dotInode_ok rfl dotDir_holds
  have hzero : (ufsdirhashBuild dotEnv dotDir dotInode).map Prod.fst = .ok 0 := rfl
  rw [heq] at hzero
  have hr : r = 0 := Except.ok.inj hzero
  have hstep : step ⟨[(0, [46]), (12, [46, 46])], 1, dotInode⟩ (.build dotEnv dotDir)
      = .ok ⟨[(0, [46]), (12, [46, 46])], 1, ip'⟩ := by
    simp only [step, heq]
    rfl
  exact ⟨⟨_, 1, ip'⟩, .single ⟨.build dotEnv dotDir, dotDir_holds, congrArg Except.toOption hstep⟩, hb.zero hr,
    hb.only.ofsfmt, rfl, rfl⟩

theorem lookup_agrees_with_scan_dotdot : ∃ s, DirhashRun ⟨[(0, [46]), (12, [46, 46])], 1, dotInode⟩ s
    ∧ ∃ ip' prevoff, ufsdirhashLookup ⟨none, fun _ => false, fun _ => 0⟩ dotDir s.ip [46, 46] true
      = .ok (.found 12 prevoff, ip') := by
  obtain ⟨s, hrun, ⟨dh, hdh, hnull⟩, hfmt, hblks, hents⟩ := dotDir_build
  obtain ⟨-, -, hlook⟩ := lookup_agrees_with_scan rfl rfl dotDir_holds hrun
  have hholds : DirHolds s.ip.ofsfmt dotDir s.blks s.ents := by
    rw [hfmt, hblks, hents]
    exact dotDir_holds
  obtain ⟨r, ip', heq, hagree, hgive⟩ := hlook ⟨none, fun _ => false, fun _ => 0⟩ dotDir [46, 46] true hholds
  have hr : r ≠ .ejustreturn := by
    intro hbad
    rcases hgive hbad with hall | ⟨k, hk⟩ | ⟨k, hk⟩
    · rw [hall dh hdh] at hnull
      cases hnull
    · cases hk
    · exact absurd hk (Nat.lt_irrefl 0)
  have hscan : linearScan s.ip.ofsfmt dotDir s.blks [46, 46] = some 12 := by
    rw [hfmt, hblks]
    decide
  have hfound := hagree hr
  rw [hscan] at hfound
  obtain ⟨prevoff, rfl⟩ := hfound
  exact ⟨s, hrun, ip', prevoff, heq⟩

/-- The statistics are exact: a block's count is the number of its free bytes, each class has its
first block, and a search for free space fails only if there is none or the block cannot be read;
else it names entries of one block that take little enough of the bytes they span. -/
theorem free_space_exact (hnone : ip.iDirhash = none) (hsize : ip.size = blks * dirblksiz)
    (hd : DirHolds ip.ofsfmt m blks ents) {s : Sys} (hrun : DirhashRun ⟨ents, blks, ip⟩ s) :
    (∀ op, Mirrors s op → ∃ s', step s op = .ok s')
    ∧ ∀ dh, s.ip.iDirhash = some dh → dh.dhNull = false → ∀ m', DirHolds s.ip.ofsfmt m' s.blks s.ents →
        (∀ b < s.blks, dh.dhBlkfree b * diralign = nfree false m' (blockOffs m' b))
        ∧ (∀ i ≤ dhNfstats, IsFirst (fun b => b < s.blks
            ∧ blkfree2idx (nfree false m' (blockOffs m' b) / diralign) = i) (dh.dhFirstfree i))
        ∧ ∀ need, 0 < need → need ≤ dhNfstats * diralign → ∀ err,
          ∃ r, ufsdirhashFindfree m' err s.ip need = .ok (r, s.ip)
            ∧ (r = none ↔ err = true ∨ ∀ b < s.blks, nfree false m' (blockOffs m' b) < need)
            ∧ ∀ off cnt, r = some (off, cnt) → ∃ b < s.blks, ∃ mid, Region false m' b off cnt mid
                ∧ usedIn (liveEnts false m' mid) b + need ≤ cnt := by
  have hok := run_ok (sysOk_init hnone hsize hd) hrun
  refine ⟨fun op hop => ?_, fun dh hdh hnull m' hd' => ?_⟩
  · obtain ⟨s', heq, -⟩ := step_ok hok op hop
    exact ⟨s', heq⟩
  · have hfree := (hok.hash.live dh hdh hnull).free
    have hfmt : s.ip.ofsfmt = false := Bool.eq_false_iff.mpr fun hf => by
      rw [hok.hash.fmt hf] at hdh
      cases hdh
    rw [hfmt] at hd'
    have hbytes : ∀ b < s.blks, dh.dhBlkfree b * diralign = nfree false m' (blockOffs m' b) :=
      fun b hb => hfree.nfree_eq hd' hb
    refine ⟨hbytes, fun i hi => ?_, fun need hpos hle err => ?_⟩
    · refine (hfree.classes i hi).congr fun b => and_congr_right fun hb => ?_
      rw [← hbytes b hb, Nat.mul_div_cancel _ (by decide)]
    · rcases findfree_spec hfree hd' hdh hnull hpos hle err with
        ⟨b, hb, off, cnt, mid, heq, rfl, hregion, hroom⟩ | ⟨heq, hwhy⟩
      · obtain ⟨pre, post, hsplit, htiles⟩ := hregion
        have hblk : ∀ p ∈ mid, p / dirblksiz = b := fun p hp =>
          (hd'.wf.block hb (by rw [hsplit]; simp [hp])).1
        refine ⟨_, heq, ⟨nofun, ?_⟩, fun off' cnt' h => ?_⟩
        · rintro (hbad | hno)
          · cases hbad
          · have hlt := hno b hb
            rw [hsplit, nfree_append, nfree_append] at hlt
            omega
        · obtain ⟨rfl, rfl⟩ := Prod.mk.inj (Option.some.inj h)
          have hsum := htiles.nfree_add_used hblk
          exact ⟨b, hb, mid, ⟨pre, post, hsplit, htiles⟩, by omega⟩
      · exact ⟨none, heq, ⟨fun _ => hwhy, fun _ => rfl⟩, nofun⟩

theorem free_space_exact_dot : ∃ s, DirhashRun ⟨[(0, [46]), (12, [46, 46])], 1, dotInode⟩ s
    ∧ (∃ dh, s.ip.iDirhash = some dh ∧ dh.dhBlkfree 0 * diralign = 488)
    ∧ (∃ r, ufsdirhashFindfree dotDir false s.ip 264 = .ok (r, s.ip) ∧ r ≠ none) := by
  obtain ⟨s, hrun, ⟨dh, hdh, hnull⟩, hfmt, hblks, hents⟩ := dotDir_build
  have hholds : DirHolds s.ip.ofsfmt dotDir s.blks s.ents := by
    rw [hfmt, hblks, hents]
    exact dotDir_holds
  obtain ⟨-, hexact⟩ := free_space_exact rfl rfl dotDir_holds hrun
  obtain ⟨hbytes, -, hfind⟩ := hexact dh hdh hnull dotDir hholds
  have hroom : nfree false dotDir (blockOffs dotDir 0) = 488 := by decide
  obtain ⟨r, heq, hiff, -⟩ := hfind 264 (by decide) (by decide) false
  refine ⟨s, hrun, ⟨dh, hdh, ?_⟩, r, heq, fun hno => ?_⟩
  · rw [hbytes 0 (by rw [hblks]; decide), hroom]
  · rcases hiff.mp hno with hbad | hall
    · cases hbad
    · have hlt := hall 0 (by rw [hblks]; decide)
      omega

end Obsd.Ufs
