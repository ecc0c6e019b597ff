import Obsd.MsdosFatOps

/-!
# Freeing a chain

`freeclusterchain` keeps the block at hand in a buffer, and what it has
changed there reaches the device when it comes to another block. Behind
the buffer there is one table, in which the walk frees one entry after the
other; `Walked` says which.
-/

namespace Obsd.Fat

variable {v : Volume} {io : Nat → Bool} {s : St} {tab : Mem}

/-! ## The walk -/

/-- The numbers of the clusters of a volume. -/
def Volume.InRange (v : Volume) (cn : Nat) : Prop := clustFirst ≤ cn ∧ cn ≤ v.maxcluster

instance (v : Volume) (cn : Nat) : Decidable (v.InRange cn) :=
  inferInstanceAs (Decidable (_ ∧ _))

/-- The cluster that freeclusterchain goes to from a cluster. -/
def Volume.next (v : Volume) (tab : Mem) (cn : Nat) : BitVec 32 :=
  follow v (BitVec.ofNat 32 (v.entry tab cn))

/-- The entries `cs` are freed from `cluster` on, and the walk comes to
`last`. -/
inductive Walked (v : Volume) : Mem → BitVec 32 → List Nat → Mem → BitVec 32 → Prop
  | nil (tab : Mem) (cluster : BitVec 32) : Walked v tab cluster [] tab cluster
  | cons {tab tab' : Mem} {cluster last : BitVec 32} {cs : List Nat}
      (h : v.InRange cluster.toNat)
      (rest : Walked v (v.setEntry tab cluster.toNat msdosfsfree) (v.next tab cluster.toNat) cs
        tab' last) :
      Walked v tab cluster (cluster.toNat :: cs) tab' last

/-- The entries that are not free. -/
def Volume.inUse (v : Volume) (tab : Mem) : Finset Nat :=
  (Finset.Icc clustFirst v.maxcluster).filter fun cn => v.entry tab cn ≠ 0

theorem entry_setEntry {cn cn' : Nat} (h : cn ≤ v.maxcluster) (h' : cn' ≤ v.maxcluster)
    (new : BitVec 32) : v.entry (v.setEntry tab cn new) cn'
      = if cn' = cn then new.toNat % v.type.values else v.entry tab cn' := by
  split
  · rename_i heq
    rw [heq, entry_setEntry_self]
  · rename_i hne
    exact entry_setEntry_of_ne tab new h h' hne

theorem entry_free {cn cn' : Nat} (h : cn ≤ v.maxcluster) (h' : cn' ≤ v.maxcluster) :
    v.entry (v.setEntry tab cn msdosfsfree) cn' = if cn' = cn then 0 else v.entry tab cn' := by
  rw [entry_setEntry h h']
  exact if_congr Iff.rfl (Nat.zero_mod _) rfl

/-- A step of the walk frees an entry. -/
theorem inUse_free {cn : Nat} (h : v.InRange cn) :
    v.inUse (v.setEntry tab cn msdosfsfree) = (v.inUse tab).erase cn := by
  ext a
  rw [Finset.mem_erase, Volume.inUse, Volume.inUse, Finset.mem_filter, Finset.mem_filter,
    Finset.mem_Icc]
  by_cases ha : clustFirst ≤ a ∧ a ≤ v.maxcluster
  · rw [entry_free h.2 ha.2]
    by_cases heq : a = cn
    · simp [heq]
    · simp [heq]
  · simp [ha]

theorem follow_free : follow v 0#32 = 0#32 := by
  unfold follow
  cases v.type <;> decide

/-- The walk ends behind a free entry. -/
theorem next_of_free {cn : Nat} (h : v.entry tab cn = 0) : ¬ v.InRange (v.next tab cn).toNat := by
  rw [Volume.next, h, follow_free]
  exact fun hr => absurd hr.1 (by decide)

/-! ## The block at hand -/

/-- The block at hand belongs to the table `tab`, which is otherwise on the
device. -/
def HeldOk (v : Volume) (tab : Mem) (disk : Mem) : Option (Nat × Buf) → Prop
  | none => v.table disk = tab
  | some (lbn, buf) => ∃ cn, cn ≤ v.maxcluster ∧ lbn = (fatblock v (v.fatofs cn)).bn
      ∧ buf.size = (fatblock v (v.fatofs cn)).size ∧ Holds tab (v.blkStart cn) buf
      ∧ ∀ a, a < v.blkStart cn ∨ v.blkStart cn + buf.size ≤ a → tab a = v.table disk a

theorem HeldOk.flush {disk : Mem} {lbn : Nat} {buf : Buf}
    (h : HeldOk v tab disk (some (lbn, buf))) : v.table (updatefats v disk lbn buf) = tab := by
  obtain ⟨cn, hmax, rfl, hsize, hholds, hframe⟩ := h
  obtain ⟨hbn, -, -, hend⟩ := fatblock_spec hmax
  rw [table_updatefats hbn (hsize ▸ hend)]
  exact hholds.overlay hframe

/-- Clusters with entries in the same block. -/
theorem block_of_bn {cn cn' : Nat}
    (h : (fatblock v (v.fatofs cn')).bn = (fatblock v (v.fatofs cn)).bn) :
    (fatblock v (v.fatofs cn')).size = (fatblock v (v.fatofs cn)).size
      ∧ v.blkStart cn' = v.blkStart cn := by
  have hsecs : v.fatofs cn' / v.fatblocksize * v.fatblocksec
      = v.fatofs cn / v.fatblocksize * v.fatblocksec := Nat.add_right_cancel h
  refine ⟨?_, ?_⟩
  · show min _ (_ - _ / _ * _) * _ = min _ (_ - _ / _ * _) * _
    rw [hsecs]
  · rw [Volume.blkStart, Volume.blkStart, v.blocksize_eq, ← Nat.mul_assoc, ← Nat.mul_assoc,
      ← v.blocksize_eq, hsecs]

/-- The next block is the one at hand or can be read, and then it holds a
stretch of the table. -/
theorem nextBlock_spec {held : Option (Nat × Buf)} {cn : Nat} (hmax : cn ≤ v.maxcluster)
    (h : HeldOk v tab s.disk held) :
    ∃ disk res, nextBlock v io held (fatblock v (v.fatofs cn)) s = ({ s with disk := disk }, res)
      ∧ ((res = none ∧ io (fatblock v (v.fatofs cn)).bn = false ∧ v.table disk = tab)
        ∨ ∃ buf, res = some buf
          ∧ HeldOk v tab disk (some ((fatblock v (v.fatofs cn)).bn, buf))
          ∧ buf.size = (fatblock v (v.fatofs cn)).size ∧ Holds tab (v.blkStart cn) buf) := by
  -- A block read from a device with the table on it.
  have hbread : ∀ disk, v.table disk = tab →
      (bread io disk (fatblock v (v.fatofs cn)) = none
          ∧ io (fatblock v (v.fatofs cn)).bn = false ∧ v.table disk = tab)
        ∨ ∃ buf, bread io disk (fatblock v (v.fatofs cn)) = some buf
          ∧ HeldOk v tab disk (some ((fatblock v (v.fatofs cn)).bn, buf))
          ∧ buf.size = (fatblock v (v.fatofs cn)).size ∧ Holds tab (v.blkStart cn) buf := by
    intro disk hdisk
    cases hio : io (fatblock v (v.fatofs cn)).bn with
    | false => exact .inl ⟨by rw [bread, hio]; rfl, rfl, hdisk⟩
    | true =>
      obtain ⟨buf, hread, hsize, hholds⟩ := bread_holds (d := disk) hmax hio
      rw [hdisk] at hholds
      exact .inr ⟨buf, hread, ⟨cn, hmax, rfl, hsize, hholds, fun a _ => by rw [hdisk]⟩, hsize,
        hholds⟩
  cases held with
  | none => exact ⟨s.disk, _, rfl, hbread s.disk h⟩
  | some lb =>
    obtain ⟨lbn, buf⟩ := lb
    by_cases hsame : lbn = (fatblock v (v.fatofs cn)).bn
    · refine ⟨s.disk, some buf, if_pos hsame, .inr ⟨buf, rfl, hsame ▸ h, ?_⟩⟩
      obtain ⟨cn', hmax', hlbn, hsize, hholds, -⟩ := h
      obtain ⟨hsize', hstart⟩ := block_of_bn (hsame.symm.trans hlbn)
      rw [hsize', hstart]
      exact ⟨hsize, hholds⟩
    · exact ⟨_, _, if_neg hsame, hbread _ h.flush⟩

/-! ## The loop -/

/-- What is left of the map after the clusters `cs` are freed. -/
def freeAll (cs : List Nat) (s : St) : St := cs.foldl (fun s cn => usemapFree cn s) s

theorem follow_mask (x : BitVec 32) : follow v (x &&& v.type.mask) = follow v x := by
  unfold follow
  rw [BitVec.and_assoc, BitVec.and_self]

/-- A turn of the loop. -/
theorem freeEntry_step {disk : Mem} {cn : Nat} {buf : Buf} (hmax : cn ≤ v.maxcluster)
    (hsize : buf.size = (fatblock v (v.fatofs cn)).size) (hholds : Holds tab (v.blkStart cn) buf)
    (hheld : HeldOk v tab disk (some ((fatblock v (v.fatofs cn)).bn, buf))) :
    ∃ buf' next, freeEntry v buf (fatblock v (v.fatofs cn)).bo cn = some (buf', next)
      ∧ follow v next = v.next tab cn
      ∧ HeldOk v (v.setEntry tab cn msdosfsfree) disk
        (some ((fatblock v (v.fatofs cn)).bn, buf')) := by
  obtain ⟨-, hofs, hin, -⟩ := fatblock_spec hmax
  rw [← hsize] at hin
  obtain ⟨next, hfree, hnext⟩ := freeEntry_eq (v := v) hin
  refine ⟨_, next, hfree, ?_, cn, hmax, rfl, hsize, hholds.set hin hofs _, ?_⟩
  · rw [Volume.next, ← hholds.entry hin hofs, ← hnext, follow_mask]
  · intro a ha
    have ha' : a < v.blkStart cn ∨ v.blkStart cn + buf.size ≤ a := ha
    rw [setEntry_of_outside _ (by omega)]
    obtain ⟨cn', -, hbn, -, -, hframe⟩ := hheld
    rw [← (block_of_bn hbn).2] at hframe
    exact hframe a ha'

theorem freeAll_disk (cs : List Nat) (s : St) (disk disk' : Mem) :
    { freeAll cs { s with disk := disk } with disk := disk' }
      = { freeAll cs s with disk := disk' } := by
  induction cs generalizing s with
  | nil => rfl
  | cons cn cs ih => exact ih (usemapFree cn s)

/-- How the walk ends: behind the last cluster, or before a block that
cannot be read. -/
def Stopped (v : Volume) (io : Nat → Bool) (last : BitVec 32) (res : Except Err Unit) : Prop :=
  (res = .ok () ∧ ¬ v.InRange last.toNat)
    ∨ (res = .error .eio ∧ v.InRange last.toNat
      ∧ io (fatblock v (v.fatofs last.toNat)).bn = false)

/-- The loop stops, and the block at hand is written. -/
theorem freeLoop_stop (turns : Nat) {cluster : BitVec 32} {held : Option (Nat × Buf)}
    (hout : ¬ v.InRange cluster.toNat) (h : HeldOk v tab s.disk held) :
    ∃ disk, v.table disk = tab
      ∧ freeLoop v io turns cluster held s = ({ s with disk := disk }, .ok ()) := by
  unfold freeLoop
  match held, h with
  | none, h => exact ⟨s.disk, h, if_neg hout⟩
  | some (lbn, buf), h => exact ⟨_, h.flush, if_neg hout⟩

/-- The loop of freeclusterchain frees the entries of a walk, and comes to
an end. -/
theorem freeLoop_walked (turns : Nat) {cluster : BitVec 32} {held : Option (Nat × Buf)}
    (hturns : v.InRange cluster.toNat → (v.inUse tab).card < turns)
    (h : HeldOk v tab s.disk held) :
    ∃ cs last disk res, Walked v tab cluster cs (v.table disk) last
      ∧ freeLoop v io turns cluster held s = ({ freeAll cs s with disk := disk }, res)
      ∧ Stopped v io last res := by
  induction turns generalizing cluster held s tab with
  | zero =>
    have hout : ¬ v.InRange cluster.toNat := fun hr => absurd (hturns hr) (Nat.not_lt_zero _)
    obtain ⟨disk, htab, hstop⟩ := freeLoop_stop 0 hout h
    exact ⟨[], cluster, disk, _, htab.symm ▸ .nil _ _, hstop, .inl ⟨rfl, hout⟩⟩
  | succ turns ih =>
    by_cases hin : v.InRange cluster.toNat
    · obtain ⟨disk, res, hnext, hres⟩ := @nextBlock_spec v io s tab held _ hin.2 h
      have hloop : clustFirst ≤ cluster.toNat ∧ cluster.toNat ≤ v.maxcluster := hin
      rw [freeLoop.eq_def]
      simp only [if_pos hloop, hnext]
      obtain ⟨rfl, hio, htab⟩ | ⟨buf, rfl, hheld, hsize, hholds⟩ := hres
      · exact ⟨[], cluster, disk, _, htab.symm ▸ .nil _ _, rfl, .inr ⟨rfl, hin, hio⟩⟩
      obtain ⟨buf', next, hfree, hfollow, hheld'⟩ := freeEntry_step hin.2 hsize hholds hheld
      simp only [hfree, hfollow]
      -- Either the entry was in use, and there is one less, or the walk is over.
      have hturns' : v.InRange (v.next tab cluster.toNat).toNat →
          (v.inUse (v.setEntry tab cluster.toNat msdosfsfree)).card < turns := by
        intro hnext_in
        have hused : cluster.toNat ∈ v.inUse tab :=
          Finset.mem_filter.mpr ⟨Finset.mem_Icc.mpr hin, fun hfree => next_of_free hfree hnext_in⟩
        rw [inUse_free hin, Finset.card_erase_of_mem hused]
        have hcard := hturns hin
        have hpos := Finset.card_pos.mpr ⟨_, hused⟩
        omega
      obtain ⟨cs, last, disk', res, hwalk, hrun, hstop⟩ :=
        @ih (usemapFree cluster.toNat { s with disk := disk }) _ _ _ hturns' hheld'
      refine ⟨cluster.toNat :: cs, last, disk', res, .cons hin hwalk, ?_, hstop⟩
      rw [hrun]
      exact congrArg (·, res) (freeAll_disk cs (usemapFree cluster.toNat s) disk disk')
    · obtain ⟨disk, htab, hstop⟩ := freeLoop_stop (turns + 1) hin h
      exact ⟨[], cluster, disk, _, htab.symm ▸ .nil _ _, hstop, .inl ⟨rfl, hin⟩⟩

/-- freeclusterchain frees the entries of a walk. -/
theorem freeclusterchain_walked (io : Nat → Bool) (cluster : BitVec 32) (s : St) :
    ∃ cs last disk res, Walked v (v.table s.disk) cluster cs (v.table disk) last
      ∧ freeclusterchain v io cluster s = ({ freeAll cs s with disk := disk }, res)
      ∧ Stopped v io last res := by
  refine freeLoop_walked (v.maxcluster + 1) (fun _ => ?_) rfl
  have hcard : (v.inUse (v.table s.disk)).card ≤ (Finset.Icc clustFirst v.maxcluster).card :=
    Finset.card_filter_le _ _
  rw [Nat.card_Icc] at hcard
  have hfirst : clustFirst = 2 := rfl
  omega

/-! ## The chain -/

/-- From a cluster to the one its entry names, by the reading `read` of
entries. -/
def Link (v : Volume) (read : BitVec 32 → BitVec 32) (tab : Mem) (a b : Nat) : Prop :=
  v.InRange a ∧ (read (BitVec.ofNat 32 (v.entry tab a))).toNat = b

/-- The clusters of the chain that starts with `cluster`. -/
def Chain (v : Volume) (read : BitVec 32 → BitVec 32) (tab : Mem) (cluster cn : Nat) : Prop :=
  Relation.ReflTransGen (Link v read tab) cluster cn ∧ v.InRange cn

/-- Entries that are not free link clusters as before. -/
theorem link_free {a b cn : Nat} (hcn : v.InRange cn) (hne : a ≠ cn) :
    Link v (follow v) (v.setEntry tab cn msdosfsfree) a b ↔ Link v (follow v) tab a b := by
  refine and_congr_right fun ha => ?_
  rw [entry_free hcn.2 ha.2, if_neg hne]

/-- The chain of a number that is no cluster is empty. -/
theorem chain_of_out {read : BitVec 32 → BitVec 32} {cluster cn : Nat}
    (hout : ¬ v.InRange cluster) : ¬ Chain v read tab cluster cn := by
  rintro ⟨hpath, hin⟩
  obtain rfl | ⟨b, hlink, -⟩ := Relation.ReflTransGen.cases_head hpath
  · exact hout hin
  · exact hout hlink.1

/-- A chain in a table with a freed entry was there before: it does not go
on from the freed cluster, whose entry leads out. -/
theorem Chain.of_free {cluster first cn : Nat} (h : v.InRange cluster)
    (hchain : Chain v (follow v) (v.setEntry tab cluster msdosfsfree) first cn) :
    Chain v (follow v) tab first cn := by
  obtain ⟨hpath, hin⟩ := hchain
  refine ⟨?_, hin⟩
  induction hpath using Relation.ReflTransGen.head_induction_on with
  | refl => exact .refl
  | @head a b hlink hrest ih =>
    have ha : a ≠ cluster := by
      intro ha
      have hfree : v.entry (v.setEntry tab cluster msdosfsfree) a = 0 := by
        rw [entry_free h.2 (ha ▸ h.2), if_pos ha]
      have hout : ¬ v.InRange b := hlink.2 ▸ next_of_free hfree
      exact chain_of_out hout ⟨hrest, hin⟩
    exact .head ((link_free h ha).mp hlink) ih

/-- The chain through a table in which its first entry has been freed. -/
theorem chain_cons {cluster cn : Nat} (h : v.InRange cluster) :
    Chain v (follow v) tab cluster cn ↔ cn = cluster
      ∨ Chain v (follow v) (v.setEntry tab cluster msdosfsfree) (v.next tab cluster).toNat cn := by
  constructor
  · rintro ⟨hpath, hin⟩
    have hor : cn = cluster ∨ Relation.ReflTransGen
        (Link v (follow v) (v.setEntry tab cluster msdosfsfree)) (v.next tab cluster).toNat cn := by
      clear hin
      induction hpath with
      | refl => exact .inl rfl
      | @tail a b _ hlink ih =>
        refine .inr ?_
        by_cases ha : a = cluster
        · rw [ha] at hlink
          rw [← hlink.2]
          exact .refl
        · exact (ih.resolve_left ha).tail ((link_free h ha).mpr hlink)
    exact hor.imp_right fun hpath' => ⟨hpath', hin⟩
  · rintro (rfl | hchain)
    · exact ⟨.refl, h⟩
    · have hold := hchain.of_free h
      exact ⟨.head ⟨h, rfl⟩ hold.1, hold.2⟩

/-- What the walk frees is in the chain, and all of the chain if the walk
comes to its end. -/
theorem Walked.chain {tab' : Mem} {cluster last : BitVec 32} {cs : List Nat}
    (h : Walked v tab cluster cs tab' last) :
    (∀ cn ∈ cs, Chain v (follow v) tab cluster.toNat cn)
      ∧ (¬ v.InRange last.toNat → ∀ cn, Chain v (follow v) tab cluster.toNat cn → cn ∈ cs) := by
  induction h with
  | nil tab cluster =>
    exact ⟨fun cn hcn => absurd hcn List.not_mem_nil,
      fun hout cn hchain => absurd hchain (chain_of_out hout)⟩
  | @cons tab tab' cluster last cs hin rest ih =>
    refine ⟨fun cn hcn => ?_, fun hout cn hchain => ?_⟩
    · obtain rfl | hcn := List.mem_cons.mp hcn
      · exact ⟨.refl, hin⟩
      · exact (chain_cons hin).mpr (.inr (ih.1 cn hcn))
    · obtain rfl | hrest := (chain_cons hin).mp hchain
      · exact List.mem_cons_self
      · exact List.mem_cons_of_mem _ (ih.2 hout cn hrest)

theorem Walked.inRange {tab' : Mem} {cluster last : BitVec 32} {cs : List Nat}
    (h : Walked v tab cluster cs tab' last) : ∀ cn ∈ cs, v.InRange cn :=
  fun cn hcn => (h.chain.1 cn hcn).2

theorem Walked.table_eq {tab' : Mem} {cluster last : BitVec 32} {cs : List Nat}
    (h : Walked v tab cluster cs tab' last) :
    tab' = cs.foldl (fun tab cn => v.setEntry tab cn msdosfsfree) tab := by
  induction h with
  | nil tab cluster => rfl
  | cons hin rest ih => exact ih

end Obsd.Fat
