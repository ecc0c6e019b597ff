import Obsd.Dirhash

/-!
# The table of a hashed directory

The table holds the entries of the directory, each reachable from the slot
its name hashes to, and `dh_hused` counts the slots that are not empty;
there is always one that is. Every probe loop therefore ends, and each of
the operations keeps both. A search agrees with the directory whatever the
sequential-access hint says, since the hint only picks the slot that is
looked at first, and a name that does not match there sends the search back
to the start of its chain.
-/

namespace Obsd.Ufs

open OpenTable

variable {dh : Dirhash} {m : DirMem} {blks o slot : Nat} {ents ents' : List Ent} {name : Name}

/-- The table holds `ents` and is not full. -/
structure TableOk (dh : Dirhash) (ents : List Ent) : Prop where
  holds : Holds dh.dhHash dh.dhHlen (ufsdirhashHash dh) fun o k => (o, k) ∈ ents
  hused : dh.dhHused = used dh.dhHash dh.dhHlen
  room : dh.dhHused < dh.dhHlen

theorem TableOk.congr (h : TableOk dh ents) (hmem : ∀ e, e ∈ ents ↔ e ∈ ents') : TableOk dh ents' :=
  ⟨h.holds.congr fun _ _ => hmem _, h.hused, h.room⟩

theorem TableOk.used_lt (h : TableOk dh ents) : used dh.dhHash dh.dhHlen < dh.dhHlen := by
  have h1 := h.hused
  have h2 := h.room
  omega

/-! ## Finding and adding -/

theorem TableOk.findslot (h : TableOk dh ents) (hmem : (o, name) ∈ ents) :
    ∃ slot < dh.dhHlen, ufsdirhashFindslot dh name o = .ok slot ∧ dh.dhHash slot = .full o := by
  obtain ⟨s, hs, hfull, hreach⟩ := h.holds.reach o name hmem
  obtain ⟨slot, hslot, hprobe, hat⟩ := hreach.probe (h.holds.home name) hs hfull
  refine ⟨slot, hslot, ?_, hat⟩
  rw [ufsdirhashFindslot, if_pos h.room, hprobe]
  exact if_pos hat

/-- An entry is put in a free slot of its chain. -/
theorem TableOk.insert (h : TableOk dh ents) (hs : slot < dh.dhHlen) (hfree : ∀ w, dh.dhHash slot ≠ .full w)
    (hr : Reach dh.dhHash dh.dhHlen (ufsdirhashHash dh name) slot) (hnew : ∀ k, (o, k) ∉ ents)
    (hroom : dh.dhHused + 1 < dh.dhHlen) :
    TableOk { dh with
      dhHused := if dh.dhHash slot = .empty then dh.dhHused + 1 else dh.dhHused
      dhHash := Function.update dh.dhHash slot (.full o) } ((o, name) :: ents) := by
  refine ⟨(h.holds.insert hs hfree hr hnew).congr fun w k => ?_, ?_, ?_⟩
  · rw [List.mem_cons, Prod.mk.injEq, Or.comm]
  · have hused := h.hused
    by_cases hempty : dh.dhHash slot = .empty
    · rw [if_pos hempty, used_fill hs hempty (Slot.full_ne_empty o), hused]
      rfl
    · rw [if_neg hempty, used_keep hempty (Slot.full_ne_empty o), hused]
  · simp only
    split <;> omega

/-- The slot `ufsdirhash_add` and `ufsdirhash_build` find. -/
theorem TableOk.probe_free (h : TableOk dh ents) (stop : Nat → Bool)
    (hstop : ∀ i, dh.dhHash i = .empty → stop i = true)
    (hpass : ∀ i, stop i = true → ∀ w, dh.dhHash i ≠ .full w) (name : Name) :
    ∃ slot < dh.dhHlen, probe dh.dhHlen stop dh.dhHlen (ufsdirhashHash dh name) = some slot ∧ stop slot = true
      ∧ (∀ w, dh.dhHash slot ≠ .full w) ∧ Reach dh.dhHash dh.dhHlen (ufsdirhashHash dh name) slot :=
  OpenTable.probe_free hstop hpass (h.holds.home name) h.used_lt

theorem TableOk.move {newoff : Nat} (h : TableOk dh ents) (hs : slot < dh.dhHlen) (hfull : dh.dhHash slot = .full o)
    (hmem : (o, name) ∈ ents) (hoffs : (ents.map Prod.fst).Nodup)
    (hnew : ∀ k, (newoff, k) ∈ ents → newoff = o) :
    TableOk { dh with dhHash := Function.update dh.dhHash slot (.full newoff) }
      ((newoff, name) :: ents.erase (o, name)) := by
  refine ⟨(h.holds.replace hs hfull hmem hnew).congr fun w k => ?_, ?_, h.room⟩
  · rw [List.mem_cons, Prod.mk.injEq, (List.Nodup.of_map _ hoffs).mem_erase_iff, Or.comm]
    refine or_congr_right ⟨fun hw => ⟨fun he => hw.2 (congrArg Prod.fst he), hw.1⟩, fun hw => ⟨hw.2, ?_⟩⟩
    rintro rfl
    exact hw.1 (List.inj_on_of_nodup_map hoffs hw.2 hmem rfl)
  · rw [used_keep (by rw [hfull]; exact Slot.full_ne_empty o) (Slot.full_ne_empty newoff)]
    exact h.hused

/-! ## Deleting -/

/-- Deleted slots before an empty one are given back, and the loop ends. -/
theorem reclaim_spec {n : Nat} {hash : Name → Nat} {live : Nat → Name → Prop} : ∀ fuel (t : Nat → Slot Nat) i,
    Holds t n hash live → i < n → t (wrapIncr i n) = .empty → Nat.count (fun s => t s = .del) n < fuel →
    ∃ t', reclaim n fuel t (used t n) i = some (t', (used t' n : Int)) ∧ Holds t' n hash live
      ∧ used t' n ≤ used t n := by
  intro fuel
  induction fuel with
  | zero =>
    intro t i _ _ _ hf
    omega
  | succ fuel ih =>
    intro t i ht hi hnext hf
    rw [reclaim]
    by_cases hdel : t i = .del
    · have hused := used_clear hi (t := t) (by rw [hdel]; nofun)
      have hcount : Nat.count (fun s => t s = .del) n
          = Nat.count (fun s => Function.update t i .empty s = .del) n + 1 := by
        refine Bytes.count_flip hdel ?_ (fun j hj => ?_) n hi
        · rw [Function.update_self]
          nofun
        · rw [Function.update_of_ne hj]
      obtain ⟨t', heq, hholds, hle⟩ := ih (Function.update t i .empty) (wrapDecr i n) (ht.clear hi hdel hnext)
        (wrapDecr_lt hi) (by rw [wrapIncr_wrapDecr hi, Function.update_self]) (by omega)
      refine ⟨t', ?_, hholds, by omega⟩
      rw [if_pos hdel, ← heq, hused]
      congr 1
      omega
    · exact ⟨t, if_neg hdel, ht, le_rfl⟩

/-- The entry in a slot is deleted, with whatever can be given back. -/
theorem TableOk.delslot (h : TableOk dh ents) (hs : slot < dh.dhHlen) (hfull : dh.dhHash slot = .full o)
    (hmem : (o, name) ∈ ents) (hoffs : (ents.map Prod.fst).Nodup) :
    ∃ hash hused, ufsdirhashDelslot dh slot = .ok { dh with dhHash := hash, dhHused := hused }
      ∧ TableOk { dh with dhHash := hash, dhHused := hused } (ents.erase (o, name)) := by
  have hne : dh.dhHash slot ≠ .empty := by rw [hfull]; nofun
  have hused : used (Function.update dh.dhHash slot .del) dh.dhHlen = used dh.dhHash dh.dhHlen :=
    used_keep hne nofun
  have hlt := h.used_lt
  have hdel : Holds (Function.update dh.dhHash slot .del) dh.dhHlen (ufsdirhashHash dh)
      fun w k => (w, k) ∈ ents.erase (o, name) := by
    refine (h.holds.delete hs hfull).congr fun w k => ?_
    rw [(List.Nodup.of_map _ hoffs).mem_erase_iff]
    refine ⟨fun hw => ⟨fun he => hw.2 (congrArg Prod.fst he), hw.1⟩, fun hw => ⟨hw.2, ?_⟩⟩
    rintro rfl
    exact hw.1 (List.inj_on_of_nodup_map hoffs hw.2 hmem rfl)
  generalize ht : Function.update dh.dhHash slot .del = t at hused hdel
  -- the loop over deleted slots ends at one that is not
  obtain ⟨e, he, hempty⟩ := exists_empty (t := t) (n := dh.dhHlen) (by omega)
  obtain ⟨d, hd, hprobe, hstop, -⟩ := probe_spec (p := fun s => decide (t s ≠ .del)) hs he (by simp [hempty])
  rw [ufsdirhashDelslot]
  simp only [ht, hprobe]
  have hi := after_lt (Nat.zero_lt_of_lt hs) slot d
  generalize after dh.dhHlen slot d = i at hi
  by_cases hend : t i = .empty
  · have hcount : Nat.count (fun s => t s = .del) dh.dhHlen < dh.dhHlen + 1 := Nat.lt_succ_of_le (Nat.count_le _)
    obtain ⟨t', heq, hholds, hle⟩ := reclaim_spec (dh.dhHlen + 1) t (wrapDecr i dh.dhHlen) hdel (wrapDecr_lt hi)
      (by rw [wrapIncr_wrapDecr hi]; exact hend) hcount
    rw [hused, ← h.hused] at heq
    refine ⟨t', (used t' dh.dhHlen : Int), ?_, hholds, rfl, ?_⟩
    · rw [if_pos hend, heq]
      exact if_pos (Int.natCast_nonneg _)
    · simp only
      omega
  · refine ⟨t, dh.dhHused, ?_, hdel, ?_, h.room⟩
    · rw [if_neg hend]
    · rw [hused]
      exact h.hused

theorem tableOk_new (env : BuildEnv) {narrays : Nat} (nblocks dirblocks : Nat) (hpos : 0 < narrays) :
    TableOk (newDirhash env narrays nblocks dirblocks) [] := by
  have hlen : 0 < narrays * dhNblkoff := Nat.mul_pos hpos (by decide)
  have hzero : used (fun _ => (.empty : Slot Nat)) (narrays * dhNblkoff) = 0 := by
    exact Nat.count_of_forall_not fun _ _ => nofun
  refine ⟨⟨fun k => Nat.mod_lt _ hlen, nofun, fun s _ v hv => ?_, fun s _ _ _ v hv => ?_⟩, ?_, ?_⟩
  · cases hv
  · cases hv
  · simp only [newDirhash]
    rw [hzero]
    rfl
  · simp only [newDirhash]
    omega

/-! ## The entry before -/

/-- The entry before `o` in its block is at `p`, or `o` is the first. -/
def PrevOff (m : DirMem) (o p : Nat) : Prop :=
  ∃ pre post, blockOffs m (o / dirblksiz) = pre ++ o :: post ∧ p = pre.getLast?.getD o

theorem getprevLoop_spec {blkoff entrypos e : Nat} {post : List Nat} : ∀ (pre : List Nat) (i fuel prevoff : Nat),
    Tiles false m (blkoff + i) e (pre ++ (blkoff + entrypos) :: post) → entrypos - i < fuel →
    getprevLoop m blkoff entrypos fuel i prevoff = some (pre.getLast?.getD prevoff) := by
  intro pre
  induction pre with
  | nil =>
    intro i fuel prevoff h hf
    have hi : entrypos = i := Nat.add_left_cancel h.1
    cases fuel with
    | zero => omega
    | succ fuel =>
      rw [getprevLoop, if_neg (by omega)]
      rfl
  | cons p pre ih =>
    intro i fuel prevoff h hf
    have hrec := h.reclen_pos (List.mem_cons_self ..)
    obtain ⟨rfl, h4, hsiz, hrest⟩ := h
    have hle := (hrest.mem (List.mem_append_right pre (List.mem_cons_self ..))).1
    cases fuel with
    | zero => omega
    | succ fuel =>
      rw [getprevLoop, if_pos (by omega)]
      simp only [if_neg (show ¬ (dReclen m (blkoff + i) = 0 ∨ i + dReclen m (blkoff + i) > entrypos) by omega)]
      rw [ih (i + dReclen m (blkoff + i)) fuel (blkoff + i) (by rw [← Nat.add_assoc]; exact hrest) (by omega)]
      cases pre with
      | nil => rfl
      | cons q pre => rfl

theorem DirWf.mem_split (h : DirWf false m blks) (ho : o ∈ dirOffs m blks) :
    ∃ pre post, blockOffs m (o / dirblksiz) = pre ++ o :: post
      ∧ Tiles false m (o / dirblksiz * dirblksiz) ((o / dirblksiz + 1) * dirblksiz) (pre ++ o :: post) := by
  obtain ⟨b, hb, hob⟩ := mem_dirOffs.mp ho
  rw [(h.block hb hob).1]
  obtain ⟨pre, post, hsplit⟩ := List.append_of_mem hob
  exact ⟨pre, post, hsplit, hsplit ▸ h b hb⟩

theorem getprev_spec (h : DirWf false m blks) (ho : o ∈ dirOffs m blks) :
    (o % dirblksiz = 0 → PrevOff m o o) ∧ (o % dirblksiz ≠ 0 → ∃ p, ufsdirhashGetprev m o = some p ∧ PrevOff m o p) := by
  obtain ⟨pre, post, hsplit, htiles⟩ := h.mem_split ho
  have hdiv : o / dirblksiz * dirblksiz + o % dirblksiz = o := Nat.div_add_mod' o dirblksiz
  constructor
  · intro hmod
    rw [hmod, Nat.add_zero] at hdiv
    cases pre with
    | nil => exact ⟨[], post, hsplit, rfl⟩
    | cons p pre =>
      -- an entry before the first byte of the block
      have hrec := htiles.reclen_pos (List.mem_cons_self ..)
      have hle := (htiles.2.2.2.mem (List.mem_append_right pre (List.mem_cons_self ..))).1
      rw [hdiv] at hle
      have hp := htiles.1
      rw [hdiv] at hp
      rw [hp] at hrec
      omega
  · intro hmod
    have hblk : Tiles false m (o / dirblksiz * dirblksiz + 0) ((o / dirblksiz + 1) * dirblksiz)
        (pre ++ (o / dirblksiz * dirblksiz + o % dirblksiz) :: post) := by
      rw [Nat.add_zero, hdiv]
      exact htiles
    have hloop := getprevLoop_spec pre 0 (o % dirblksiz + 1) (o / dirblksiz * dirblksiz) hblk (by omega)
    refine ⟨_, ?_, pre, post, hsplit, rfl⟩
    rw [ufsdirhashGetprev, if_neg hmod, show o - o % dirblksiz = o / dirblksiz * dirblksiz by omega, hloop]
    cases pre with
    | nil =>
      have hp : o = o / dirblksiz * dirblksiz := htiles.1
      omega
    | cons p pre =>
      rfl

/-! ## Searching -/

/-- The same hash but for the sequential-access hint and the score. -/
def Same (dh dh' : Dirhash) : Prop :=
  ∃ seqopt seqoff score, dh' = { dh with dhSeqopt := seqopt, dhSeqoff := seqoff, dhScore := score }

theorem Same.tableOk {dh' : Dirhash} (h : Same dh dh') (ht : TableOk dh ents) : TableOk dh' ents := by
  obtain ⟨_, _, _, rfl⟩ := h
  exact ⟨ht.holds, ht.hused, ht.room⟩

/-- What a search may answer, and what becomes of the hash. -/
structure Answer (env : LookEnv) (m : DirMem) (ip : Inode) (dh : Dirhash) (ents : List Ent) (name : Name)
    (prevoffp : Bool) (r : Found) (ip' : Inode) : Prop where
  inode : ip' = ufsdirhashFree ip ∨ ∃ dh', Same dh dh' ∧ ip' = { ip with iDirhash := some dh' }
  agrees : r = .ejustreturn ∨ (r = .enoent ∧ ∀ o, (o, name) ∉ ents)
    ∨ ∃ o prevoff, r = .found o prevoff ∧ (o, name) ∈ ents ∧ (prevoffp = true → ∃ p, prevoff = some p ∧ PrevOff m o p)
  /-- It gives up only if a read fails or the memory is taken away. -/
  gives_up : r = .ejustreturn → (∃ k, env.bufatoff k = true) ∨ ∃ k, 0 < env.steal k

theorem recycleMany_null (hnull : dh.dhNull = true) (n : Nat) : recycleMany n dh = dh := by
  cases n with
  | zero => rfl
  | succ n => exact if_pos hnull

theorem recycleMany_spec (hnull : dh.dhNull = false) (n : Nat) :
    ((recycleMany n dh).dhNull = true ∧ 0 < n) ∨ ∃ score, recycleMany n dh = { dh with dhScore := score } := by
  induction n generalizing dh with
  | zero => exact .inr ⟨dh.dhScore, rfl⟩
  | succ n ih =>
    rw [recycleMany, if_neg (by rw [hnull]; decide)]
    unfold recycleOne
    by_cases hpos : dh.dhScore - 1 > 0
    · simp only [if_pos hpos]
      rcases @ih { dh with dhScore := dh.dhScore - 1 } hnull with ⟨hgone, -⟩ | ⟨score, heq⟩
      · exact .inl ⟨hgone, Nat.succ_pos n⟩
      · exact .inr ⟨score, heq⟩
    · simp only [if_neg hpos]
      rw [recycleMany_null rfl]
      exact .inl ⟨rfl, Nat.succ_pos n⟩

/-- One entry of a chain is looked at: the search ends there, or the name is another and
the search goes on or, if the hint led here, starts again. -/
theorem lookLoop_full (dh : Dirhash) (name : Name) (env : LookEnv) {ip : Inode} (hd : DirHolds false m blks ents)
    (hsize : ip.size = blks * dirblksiz) (hnull : dh.dhNull = false) (prevoffp : Bool) {k : Name}
    (hslot : dh.dhHash slot = .full o) (hmem : (o, k) ∈ ents) (fuel : Nat) (blkoff : Option Nat) (c : Nat) :
    (∃ r ip', lookLoop env m ip name prevoffp (fuel + 1) dh slot blkoff c = .ok (r, ip')
      ∧ Answer env m ip dh ents name prevoffp r ip')
    ∨ k ≠ name ∧ ∃ score blkoff', lookLoop env m ip name prevoffp (fuel + 1) dh slot blkoff c
        = if dh.dhSeqopt then
            lookLoop env m ip name prevoffp fuel { dh with dhScore := score, dhSeqopt := false }
              (ufsdirhashHash dh name) blkoff' (c + 1)
          else
            lookLoop env m ip name prevoffp fuel { dh with dhScore := score } (wrapIncr slot dh.dhHlen)
              blkoff' (c + 1) := by
  obtain ⟨hoffs, hino, rfl⟩ := hd.mem.mp hmem
  have hrec := hd.wf.tiles.reclen_pos hoffs
  have hin : o % dirblksiz + dReclen m o ≤ dirblksiz := hd.wf.inBlock hoffs
  have hsame : Same dh dh := ⟨dh.dhSeqopt, dh.dhSeqoff, dh.dhScore, rfl⟩
  rw [lookLoop]
  simp only [hslot]
  rw [if_neg (Nat.not_le.mpr (by rw [hsize]; exact hd.wf.lt hoffs))]
  by_cases hread : blkoff ≠ some (o / ip.iosize * ip.iosize) ∧ env.bufatoff c = true
  · rw [if_pos hread]
    exact .inl ⟨_, _, rfl, .inr ⟨dh, hsame, rfl⟩, .inl rfl, fun _ => .inl ⟨c, hread.2⟩⟩
  · rw [if_neg hread, if_neg (by omega)]
    by_cases hname : dName false m o = name
    · -- found; only the hint changes
      rw [if_pos ⟨by rw [← hname, dName_length], hname⟩]
      have hfound : ∀ prevoff, (prevoffp = true → ∃ p, prevoff = some p ∧ PrevOff m o p) →
          Answer env m ip dh ents name prevoffp (.found o prevoff) { ip with iDirhash := some { dh with
            dhSeqopt := dh.dhSeqopt || decide (dh.dhSeqoff = o)
            dhSeqoff := o + dirsiz (dNamlen false m o) } } := by
        intro prevoff hprev
        exact ⟨.inr ⟨_, ⟨_, _, dh.dhScore, rfl⟩, rfl⟩, .inr (.inr ⟨o, prevoff, rfl, hname ▸ hmem, hprev⟩), nofun⟩
      obtain ⟨hfirst, hlater⟩ := getprev_spec hd.wf hoffs
      cases prevoffp with
      | false => exact .inl ⟨_, _, rfl, hfound none nofun⟩
      | true =>
        by_cases hmod : o % dirblksiz = 0
        · rw [if_pos rfl, if_neg (not_not_intro hmod)]
          exact .inl ⟨_, _, rfl, hfound _ fun _ => ⟨o, rfl, hfirst hmod⟩⟩
        · obtain ⟨p, hp, hprev⟩ := hlater hmod
          rw [if_pos rfl, if_pos hmod, hp]
          exact .inl ⟨_, _, rfl, hfound _ fun _ => ⟨p, rfl, hprev⟩⟩
    · rw [if_neg fun hand => hname hand.2]
      rcases recycleMany_spec hnull (env.steal c) with ⟨hgone, hsteal⟩ | ⟨score, heq⟩
      · rw [if_pos hgone]
        exact .inl ⟨_, _, rfl, .inl rfl, .inl rfl, fun _ => .inr ⟨c, hsteal⟩⟩
      · refine .inr ⟨hname, score, some (o / ip.iosize * ip.iosize), ?_⟩
        rw [heq]
        simp only [hnull, Bool.false_eq_true, if_false]
        rfl

theorem Answer.of_same {env : LookEnv} {ip ip' : Inode} {dh' : Dirhash} {prevoffp : Bool} {r : Found}
    (h : Answer env m ip dh' ents name prevoffp r ip') (hs : Same dh dh') :
    Answer env m ip dh ents name prevoffp r ip' := by
  refine ⟨?_, h.agrees, h.gives_up⟩
  obtain ⟨_, _, _, rfl⟩ := hs
  rcases h.inode with hfree | ⟨dh'', ⟨so, sq, sc, rfl⟩, hip⟩
  · exact .inl hfree
  · exact .inr ⟨_, ⟨so, sq, sc, rfl⟩, hip⟩

/-- The search without the hint, from `d` slots into the chain on. All slots before were not
empty, and none had an entry of this name. -/
theorem lookLoop_spec (name : Name) (env : LookEnv) {ip : Inode} (hd : DirHolds false m blks ents)
    (hsize : ip.size = blks * dirblksiz) (hnull : dh.dhNull = false) (h : TableOk dh ents)
    (hseq : dh.dhSeqopt = false) (prevoffp : Bool) : ∀ (rem d fuel : Nat) (score : Int) (blkoff : Option Nat) (c : Nat),
    dh.dhHash (after dh.dhHlen (ufsdirhashHash dh name) (d + rem)) = .empty →
    (∀ j < d + rem, dh.dhHash (after dh.dhHlen (ufsdirhashHash dh name) j) ≠ .empty) → rem < fuel →
    (∀ j < d, ∀ o, dh.dhHash (after dh.dhHlen (ufsdirhashHash dh name) j) = .full o → (o, name) ∉ ents) →
    ∃ r ip', lookLoop env m ip name prevoffp fuel { dh with dhScore := score }
        (after dh.dhHlen (ufsdirhashHash dh name) d) blkoff c = .ok (r, ip')
      ∧ Answer env m ip dh ents name prevoffp r ip' := by
  have hn : 0 < dh.dhHlen := Nat.zero_lt_of_lt h.used_lt
  have hscore : ∀ score, Same dh { dh with dhScore := score } :=
    fun score => ⟨dh.dhSeqopt, dh.dhSeqoff, score, rfl⟩
  intro rem
  induction rem with
  | zero =>
    intro d fuel score blkoff c hempty hbefore hf hno
    rw [Nat.add_zero] at hempty hbefore
    cases fuel with
    | zero => omega
    | succ fuel =>
      rw [lookLoop]
      simp only [hempty]
      refine ⟨_, _, rfl, .inr ⟨_, hscore score, rfl⟩, .inr (.inl ⟨rfl, fun o ho => ?_⟩), nofun⟩
      -- the entry would be in the chain, before its end
      obtain ⟨s, hs, hfull, e, he, rfl, hreach⟩ := h.holds.reach o name ho
      by_cases hde : d < e
      · exact hreach d hde hempty
      · by_cases heq : e = d
        · rw [heq, hempty] at hfull
          cases hfull
        · exact hno e (by omega) o hfull ho
  | succ rem ih =>
    intro d fuel score blkoff c hempty hbefore hf hno
    have hsucc : d + (rem + 1) = d + 1 + rem := by omega
    rw [hsucc] at hempty hbefore
    cases fuel with
    | zero => omega
    | succ fuel =>
      have hgo : ∀ blkoff' c' score', (∀ o, dh.dhHash (after dh.dhHlen (ufsdirhashHash dh name) d) = .full o →
          (o, name) ∉ ents) → ∃ r ip', lookLoop env m ip name prevoffp fuel { dh with dhScore := score' }
            (wrapIncr (after dh.dhHlen (ufsdirhashHash dh name) d) dh.dhHlen) blkoff' c' = .ok (r, ip')
          ∧ Answer env m ip dh ents name prevoffp r ip' := by
        intro blkoff' c' score' hhere
        rw [wrapIncr_after hn]
        refine ih (d + 1) fuel score' blkoff' c' hempty hbefore (by omega) fun j hj => ?_
        by_cases hjd : j = d
        · rw [hjd]
          exact hhere
        · exact hno j (by omega)
      rcases hslot : dh.dhHash (after dh.dhHlen (ufsdirhashHash dh name) d) with _ | _ | o
      · exact absurd hslot (hbefore d (by omega))
      · rw [lookLoop]
        simp only [hslot]
        exact hgo _ _ _ fun o ho => by rw [hslot] at ho; cases ho
      · obtain ⟨k, hk⟩ := h.holds.sound _ (after_lt hn ..) o hslot
        rcases lookLoop_full { dh with dhScore := score } name env hd hsize hnull prevoffp hslot hk
          fuel blkoff c with ⟨r, ip', heq, hans⟩ | ⟨hne, score', blkoff', heq⟩
        · exact ⟨r, ip', heq, hans.of_same (hscore score)⟩
        · rw [heq, if_neg (by simp [hseq])]
          refine hgo blkoff' (c + 1) score' fun o' ho' hmem => hne ?_
          rw [hslot] at ho'
          obtain rfl := Slot.full.inj ho'
          exact congrArg Prod.snd (List.inj_on_of_nodup_map hd.ok.offs hk hmem rfl)

/-- The search from the start of the chain. -/
theorem lookLoop_start (dh : Dirhash) (name : Name) (env : LookEnv) {ip : Inode} (hd : DirHolds false m blks ents)
    (hsize : ip.size = blks * dirblksiz) (hnull : dh.dhNull = false) (h : TableOk dh ents)
    (hseq : dh.dhSeqopt = false) (prevoffp : Bool) {fuel : Nat} (hf : dh.dhHlen ≤ fuel) (blkoff : Option Nat) (c : Nat) :
    ∃ r ip', lookLoop env m ip name prevoffp fuel dh (ufsdirhashHash dh name) blkoff c = .ok (r, ip')
      ∧ Answer env m ip dh ents name prevoffp r ip' := by
  have hhome := h.holds.home name
  obtain ⟨e, he, hempty⟩ := exists_empty h.used_lt
  obtain ⟨d, hdlt, -, hat, hbefore⟩ := probe_spec (p := fun s => isEmpty (dh.dhHash s)) hhome he (isEmpty_iff.mpr hempty)
  have hspec := lookLoop_spec name env hd hsize hnull h hseq prevoffp d 0 fuel dh.dhScore blkoff c
    (by rw [Nat.zero_add]; exact isEmpty_iff.mp hat)
    (fun j hj hemp => by
      rw [Nat.zero_add] at hj
      have hno := hbefore j hj
      simp only [hemp] at hno
      cases hno)
    (by omega) (fun j hj => by omega)
  rwa [after_zero hhome] at hspec

/-- `ufsdirhash_lookup` on a hash that is in place. -/
theorem lookup_spec (env : LookEnv) {ip : Inode} (hd : DirHolds false m blks ents)
    (hsize : ip.size = blks * dirblksiz) (hip : ip.iDirhash = some dh) (hnull : dh.dhNull = false)
    (hlist : dh.dhOnlist = true) (h : TableOk dh ents) (name : Name) (prevoffp : Bool) :
    ∃ r ip', ufsdirhashLookup env m ip name prevoffp = .ok (r, ip')
      ∧ Answer env m ip dh ents name prevoffp r ip' := by
  rw [ufsdirhashLookup, hip]
  dsimp only
  rw [if_neg (by simp [hnull]), if_neg (by simp [hlist])]
  generalize hsc : (if dh.dhScore < dhScoremax then dh.dhScore + 1 else dh.dhScore) = score
  have hstart : ∀ fuel blkoff c score', dh.dhHlen ≤ fuel →
      ∃ r ip', lookLoop env m ip name prevoffp fuel { dh with dhScore := score', dhSeqopt := false }
          (ufsdirhashHash dh name) blkoff c = .ok (r, ip') ∧ Answer env m ip dh ents name prevoffp r ip' := by
    intro fuel blkoff c score' hf
    have hs : Same dh { dh with dhScore := score', dhSeqopt := false } := ⟨false, dh.dhSeqoff, score', rfl⟩
    obtain ⟨r, ip', heq, hans⟩ := lookLoop_start { dh with dhScore := score', dhSeqopt := false } name
      env hd hsize hnull (hs.tableOk h) rfl prevoffp hf blkoff c
    exact ⟨r, ip', heq, hans.of_same hs⟩
  by_cases hseq : dh.dhSeqopt = true
  · rw [if_pos hseq]
    obtain ⟨e, he, hempty⟩ := exists_empty h.used_lt
    obtain ⟨d, hdlt, hprobe, -, -⟩ := probe_spec
      (p := fun s => decide (dh.dhHash s = .full dh.dhSeqoff) || isEmpty (dh.dhHash s)) (h.holds.home name) he
      (by simp [isEmpty_iff.mpr hempty])
    rw [show ufsdirhashHash { dh with dhScore := score } name = ufsdirhashHash dh name from rfl, hprobe]
    dsimp only
    have hi := after_lt (Nat.zero_lt_of_lt he) (ufsdirhashHash dh name) d
    generalize after dh.dhHlen (ufsdirhashHash dh name) d = i at hi
    by_cases hhit : dh.dhHash i = .full dh.dhSeqoff
    · rw [if_pos hhit]
      obtain ⟨k, hk⟩ := h.holds.sound i hi _ hhit
      have hs : Same dh { dh with dhScore := score } := ⟨dh.dhSeqopt, dh.dhSeqoff, score, rfl⟩
      rcases lookLoop_full { dh with dhScore := score } name env hd hsize hnull prevoffp hhit hk
        (2 * dh.dhHlen) none 0 with ⟨r, ip', heq, hans⟩ | ⟨-, score', blkoff', heq⟩
      · exact ⟨r, ip', heq, hans.of_same hs⟩
      · rw [heq, if_pos hseq]
        exact hstart (2 * dh.dhHlen) blkoff' (0 + 1) score' (by omega)
    · rw [if_neg hhit]
      exact hstart (2 * dh.dhHlen + 1) none 0 score (by omega)
  · rw [if_neg hseq]
    have hoff : dh.dhSeqopt = false := Bool.eq_false_iff.mpr hseq
    have hgo := hstart (2 * dh.dhHlen + 1) none 0 score (by omega)
    rw [← hoff] at hgo
    exact hgo

end Obsd.Ufs
