import Obsd.MsdosAllocInv
import Obsd.Runs

/-!
# Runs of the cluster operations

The other operations on clusters keep `MapOk` as `clusteralloc` does, a
volume that has been mounted has it, and so has every state that a run of
operations comes to.
-/

namespace Obsd.Fat

variable {v : Volume} {io : Nat → Bool} {s s' : St} {tab : Mem}

/-! ## Freeing -/

theorem accesses_free {cn : Nat} (h : v.InRange cn) : Accesses v s (usemapFree cn s) := by
  intro w hmem
  obtain rfl | hmem := List.mem_cons.mp hmem
  · exact .inr (Nat.div_le_div_right h.2)
  · exact .inl hmem

/-- A cluster in use is freed, or left as it was. -/
theorem clusterfree_ok (hv : v.Plain) (h : MapOk v s) {cluster : Nat} (hin : v.InRange cluster)
    (huse : v.entry (v.table s.disk) cluster ≠ 0) : MapOk v (clusterfree v io cluster s).1 := by
  have hnot : cluster ∉ v.freeSet (v.table s.disk) := fun hmem => huse (mem_freeSet.mp hmem).2
  have htracks := h.tracks.free hin hnot
  have hwords := (accesses_free (s := s) hin).words hv h.words
  rw [clusterfree]
  cases hio : io (fatblock v (v.fatofs cluster)).bn with
  | false =>
    have hrange : ¬ (cluster < clustFirst ∨ v.maxcluster < cluster) := by
      have hlo := hin.1
      have hhi := hin.2
      omega
    rw [fatentry_of_unreadable hrange hio]
    refine ⟨?_, (accesses_alloc hin).words hv hwords⟩
    have hback := htracks.alloc (Finset.mem_insert_self cluster _)
    rwa [Finset.erase_insert hnot] at hback
  | true =>
    obtain ⟨disk, hset, htab⟩ := fatentry_eq (s := usemapFree cluster s) hin.1 hin.2 hio true true
      msdosfsfree
    rw [hset]
    refine ⟨?_, hwords⟩
    rw [htab, if_pos rfl]
    rw [freeSet_free hin]
    exact ⟨htracks.range, htracks.bits, htracks.count⟩

/-- No cluster of the chain is free, and none comes after itself. -/
def ChainInUse (v : Volume) (tab : Mem) (cluster : Nat) : Prop :=
  ∀ cn, Chain v (follow v) tab cluster cn →
    v.entry tab cn ≠ 0 ∧ ¬ Chain v (follow v) tab (v.next tab cn).toNat cn

theorem ChainInUse.rest {cluster : Nat} (h : ChainInUse v tab cluster) (hin : v.InRange cluster) :
    ChainInUse v (v.setEntry tab cluster msdosfsfree) (v.next tab cluster).toNat := by
  intro cn hchain
  have hold : Chain v (follow v) tab cluster cn := (chain_cons hin).mpr (.inr hchain)
  have hne : cn ≠ cluster := by
    rintro rfl
    exact (h cn ⟨.refl, hin⟩).2 (hchain.of_free hin)
  have hentry : v.entry (v.setEntry tab cluster msdosfsfree) cn = v.entry tab cn :=
    entry_setEntry_of_ne tab _ hin.2 hchain.2.2 hne
  refine ⟨hentry ▸ (h cn hold).1, fun hagain => (h cn hold).2 ?_⟩
  rw [Volume.next, hentry] at hagain
  exact hagain.of_free hin

/-- The map after a walk. -/
theorem Walked.tracks {tab' : Mem} {cluster last : BitVec 32} {cs : List Nat}
    (hwalk : Walked v tab cluster cs tab' last) (hs : Tracks v (v.freeSet tab) s)
    (huse : ChainInUse v tab cluster.toNat) :
    Tracks v (v.freeSet tab') (freeAll cs s) ∧ Accesses v s (freeAll cs s) := by
  induction hwalk generalizing s with
  | nil tab cluster => exact ⟨hs, fun w hw => .inl hw⟩
  | @cons tab tab' cluster last cs hin rest ih =>
    have hnot : cluster.toNat ∉ v.freeSet tab := fun hmem =>
      (huse _ ⟨.refl, hin⟩).1 (mem_freeSet.mp hmem).2
    have hfree := hs.free hin hnot
    rw [← freeSet_free hin] at hfree
    obtain ⟨htracks, haccess⟩ := ih hfree (huse.rest hin)
    refine ⟨htracks, fun w hw => ?_⟩
    obtain hw | hw := haccess w hw
    · exact accesses_free hin w hw
    · exact .inr hw

/-- freeclusterchain keeps the map, also if it stops before a block that
cannot be read. -/
theorem freeclusterchain_ok (hv : v.Plain) (io : Nat → Bool) (cluster : BitVec 32) (h : MapOk v s)
    (huse : ChainInUse v (v.table s.disk) cluster.toNat) :
    MapOk v (freeclusterchain v io cluster s).1 := by
  obtain ⟨cs, last, disk, res, hwalk, hrun, -⟩ := freeclusterchain_walked (v := v) io cluster s
  obtain ⟨htracks, haccess⟩ := hwalk.tracks h.tracks huse
  rw [hrun]
  exact ⟨⟨htracks.range, htracks.bits, htracks.count⟩, haccess.words hv h.words⟩

/-! ## extendfile -/

/-- The last cluster of a file, if it has any, is in use. -/
def LastInUse (v : Volume) (tab : Mem) (dep : Denode) : Prop :=
  dep.startCluster ≠ 0 → v.InRange dep.fsrcn ∧ v.entry tab dep.fsrcn ≠ 0

theorem eofe_values (t : FatType) : clustEofe.toNat % t.values ≠ 0 := by
  cases t <;> decide

/-- A cluster in use gets another successor. -/
theorem MapOk.relink (h : MapOk v s) (hv : v.Plain) {cn new : Nat} (hin : v.InRange cn)
    (huse : v.entry (v.table s.disk) cn ≠ 0) (hnew : v.InRange new)
    (hio : io (fatblock v (v.fatofs cn)).bn = true) :
    ∃ s', fatentry v io false true cn (BitVec.ofNat 32 new) s = (s', .ok 0) ∧ MapOk v s'
      ∧ v.freeSet (v.table s'.disk) = v.freeSet (v.table s.disk) := by
  obtain ⟨disk, hset, htab⟩ := fatentry_eq (s := s) hin.1 hin.2 hio false true (BitVec.ofNat 32 new)
  have hpos : 0 < new := Nat.lt_of_lt_of_le (by decide) hnew.1
  have hsame : v.freeSet (v.table disk) = v.freeSet (v.table s.disk) := by
    rw [htab, if_pos rfl, freeSet_setEntry hin (ofNat_mod_values_ne hv.fits hpos hnew.2)]
    exact Finset.erase_eq_of_notMem fun hmem => huse (mem_freeSet.mp hmem).2
  refine ⟨_, hset, ⟨?_, h.words⟩, hsame⟩
  rw [hsame]
  exact ⟨h.tracks.range, h.tracks.bits, h.tracks.count⟩

theorem extendLoop_ok (hv : v.Plain) (usec turns : Nat) {count : Nat} {dep : Denode}
    (h : MapOk v s) (hio : ReadableFree v io s) (hlast : LastInUse v (v.table s.disk) dep) :
    MapOk v (extendLoop v io usec turns count dep s).1 := by
  induction turns generalizing count dep s with
  | zero => exact h
  | succ turns ih =>
    rw [extendLoop]
    by_cases hcount : count = 0
    · rw [if_pos hcount]
      exact h
    rw [if_neg hcount]
    have hhint : (if dep.startCluster = 0 then 0 else (dep.fsrcn + 1) % 2 ^ 32)
        ≤ v.maxcluster + 1 := by
      split
      · exact Nat.zero_le _
      · rename_i hstart
        have hle := (hlast hstart).1.2
        exact (Nat.mod_le _ _).trans (by omega)
    obtain ⟨s₁, res, halloc, h₁, hres⟩ := clusteralloc_spec hv (eofe_values v.type) usec
      h hio (Nat.pos_of_ne_zero hcount) hhint
    simp only [halloc]
    match res, hres with
    | .error e, hres => exact h₁
    | .ok (cn, got), ⟨hpos, hgot, hrun, hset⟩ =>
      obtain ⟨h2, hmax⟩ := hrun.range h.tracks.range hpos
      -- The new clusters are in use now, and what was in use still is.
      have hused : ∀ x, v.InRange x → (x ∉ v.freeSet (v.table s.disk) ∨ cn ≤ x ∧ x < cn + got) →
          v.entry (v.table s₁.disk) x ≠ 0 := by
        intro x hx hor hzero
        have hmem : x ∈ v.freeSet (v.table s₁.disk) := mem_freeSet.mpr ⟨hx, hzero⟩
        rw [hset, Finset.mem_sdiff, Finset.mem_Ico] at hmem
        tauto
      have hio₁ : ReadableFree v io s₁ := by
        intro x hx
        rw [hset] at hx
        exact hio x (Finset.mem_sdiff.mp hx).1
      have hlast₁ : v.InRange (cn + got - 1) := ⟨by omega, by omega⟩
      have hlast_used := hused (cn + got - 1) hlast₁ (.inr ⟨by omega, by omega⟩)
      have hcn : v.InRange cn := ⟨h2, by omega⟩
      have hcn_used := hused cn hcn (.inr ⟨le_rfl, by omega⟩)
      dsimp only
      by_cases hstart : dep.startCluster = 0
      · rw [if_pos hstart]
        exact ih h₁ hio₁ fun _ => ⟨hlast₁, hlast_used⟩
      rw [if_neg hstart]
      obtain ⟨hold, hold_used⟩ := hlast hstart
      have hold_used₁ := hused dep.fsrcn hold (.inl fun hmem => hold_used (mem_freeSet.mp hmem).2)
      cases hread : io (fatblock v (v.fatofs dep.fsrcn)).bn with
      | false =>
        have hrange : ¬ (dep.fsrcn < clustFirst ∨ v.maxcluster < dep.fsrcn) := by
          have hlo := hold.1
          have hhi := hold.2
          omega
        rw [fatentry_of_unreadable hrange hread]
        exact clusterfree_ok hv h₁ hcn hcn_used
      | true =>
        obtain ⟨s₂, hlink, h₂, hsame⟩ := h₁.relink hv hold hold_used₁ hcn hread
        simp only [hlink]
        refine ih h₂ ?_ fun _ => ⟨hlast₁, fun hzero => ?_⟩
        · intro x hx
          rw [hsame] at hx
          exact hio₁ x hx
        · have hmem : cn + got - 1 ∈ v.freeSet (v.table s₂.disk) := mem_freeSet.mpr ⟨hlast₁, hzero⟩
          rw [hsame] at hmem
          exact hlast_used (mem_freeSet.mp hmem).2

/-! ## fillinusemap -/

theorem fillWords_spec (n : Nat) (s : St) :
    (fillWords n s).disk = s.disk ∧ (∀ j < n, (fillWords n s).inuse j = BitVec.allOnes 32)
      ∧ ∀ w ∈ (fillWords n s).words, w ∈ s.words ∨ w < n := by
  induction n with
  | zero => exact ⟨rfl, fun j hj => absurd hj (Nat.not_lt_zero j), fun w hw => .inl hw⟩
  | succ n ih =>
    obtain ⟨hdisk, hones, hwords⟩ := ih
    refine ⟨hdisk, fun j hj => ?_, fun w hw => ?_⟩
    · show Bitmap.setWord (fillWords n s).inuse n _ j = _
      unfold Bitmap.setWord
      split
      · rfl
      · exact hones j (by omega)
    · obtain rfl | hw := List.mem_cons.mp hw
      · exact .inr (Nat.lt_succ_self w)
      · exact (hwords w hw).imp_right fun hlt => Nat.lt_succ_of_lt hlt

/-- The buffer has the block with the entry of a cluster. -/
def BufFor (v : Volume) (tab : Mem) (cn : Nat) (buf : Buf) : Prop :=
  buf.size = (fatblock v (v.fatofs cn)).size ∧ Holds tab (v.blkStart cn) buf

theorem chainStep_le (cn : Nat) : chainStep v cn ≤ v.type.bytes := by
  unfold chainStep
  cases v.type with
  | fat12 =>
    show (if cn % 2 = 1 then 1 else 2) ≤ 2
    split
    · exact Nat.le_succ 1
    · exact Nat.le_refl 2
  | fat16 => exact Nat.le_refl 2
  | fat32 => exact Nat.le_refl 4

/-- The block at hand also has the next entry, unless that is the first of
a block. -/
theorem BufFor.next {cn : Nat} {buf : Buf} (h : BufFor v tab cn buf) (hmax : cn + 1 ≤ v.maxcluster)
    (hbo : (fatblock v (v.fatofs (cn + 1))).bo ≠ 0) : BufFor v tab (cn + 1) buf := by
  have hblk := entry_in_block (show cn ≤ v.maxcluster by omega)
  have hofs : v.blkStart cn + v.fatofs cn % v.fatblocksize = v.fatofs cn := Nat.div_add_mod' _ _
  have hnext := fatofs_succ hmax
  have hstep := chainStep_le (v := v) (cn + 1)
  have hne : v.fatofs (cn + 1) ≠ v.blkStart cn + v.fatblocksize := by
    intro heq
    refine hbo ?_
    show v.fatofs (cn + 1) % v.fatblocksize = 0
    rw [heq, Volume.blkStart, Nat.add_mod_right, Nat.mul_mod_left]
  have hsame : v.fatofs (cn + 1) / v.fatblocksize = v.fatofs cn / v.fatblocksize :=
    same_block (by omega) (by omega)
  obtain ⟨-, hsize, hstart⟩ := block_of_div hsame
  exact ⟨h.1.trans hsize.symm, hstart ▸ h.2⟩

/-- The map after a part of the clusters have been looked at. -/
theorem Tracks.look {F : Finset Nat} {cn : Nat} (h : Tracks v (F.filter (· < cn)) s)
    (hin : v.InRange cn) :
    Tracks v (F.filter (· < cn + 1)) (if cn ∈ F then usemapFree cn s else s) := by
  by_cases hcn : cn ∈ F
  · rw [if_pos hcn]
    have hset : F.filter (· < cn + 1) = insert cn (F.filter (· < cn)) := by
      ext a
      simp only [Finset.mem_filter, Finset.mem_insert, Nat.lt_succ_iff_lt_or_eq]
      constructor
      · rintro ⟨ha, hlt | rfl⟩
        · exact .inr ⟨ha, hlt⟩
        · exact .inl rfl
      · rintro (rfl | ⟨ha, hlt⟩)
        · exact ⟨hcn, .inr rfl⟩
        · exact ⟨ha, .inl hlt⟩
    rw [hset]
    exact h.free hin fun hmem => Nat.lt_irrefl cn (Finset.mem_filter.mp hmem).2
  · rw [if_neg hcn]
    have hset : F.filter (· < cn + 1) = F.filter (· < cn) := by
      ext a
      simp only [Finset.mem_filter, Nat.lt_succ_iff_lt_or_eq]
      constructor
      · rintro ⟨ha, hlt | rfl⟩
        · exact ⟨ha, hlt⟩
        · exact absurd ha hcn
      · exact fun ⟨ha, hlt⟩ => ⟨ha, .inl hlt⟩
    rw [hset]
    exact h

theorem ofNat_entry_eq_zero (tab : Mem) (cn : Nat) :
    BitVec.ofNat 32 (v.entry tab cn) = 0 ↔ v.entry tab cn = 0 := by
  have hlt := entry_lt_values (v := v) tab cn
  have hle : v.type.values ≤ 2 ^ 32 := by
    rw [values_eq]
    exact v.type.mask.isLt
  constructor
  · intro h
    have hnat : v.entry tab cn % 2 ^ 32 = 0 := congrArg BitVec.toNat h
    rwa [Nat.mod_eq_of_lt (by omega)] at hnat
  · intro h
    rw [h]
    rfl

/-- The loop of fillinusemap finds the free entries. -/
theorem fillLoop_spec (n : Nat) {cn : Nat} {held : Option Buf} (hsum : cn + n = v.maxcluster + 1)
    (h2 : clustFirst ≤ cn)
    (hheld : ∀ buf, held = some buf → BufFor v (v.table s.disk) (cn - 1) buf ∧ clustFirst < cn)
    (h : Tracks v ((v.freeSet (v.table s.disk)).filter (· < cn)) s) :
    ∃ s' res, fillLoop v io n cn held s = (s', res) ∧ s'.disk = s.disk ∧ Accesses v s s'
      ∧ (res = .error .eio
        ∨ res = .ok () ∧ Tracks v ((v.freeSet (v.table s.disk)).filter (· < cn + n)) s') := by
  induction n generalizing cn held s with
  | zero => exact ⟨s, .ok (), rfl, rfl, fun w hw => .inl hw, .inr ⟨rfl, h⟩⟩
  | succ n ih =>
    have hmax : cn ≤ v.maxcluster := by omega
    obtain ⟨-, hofs, hin, -⟩ := fatblock_spec hmax
    rw [fillLoop]
    -- The block with the entry, or none that can be read.
    have hblock : (if (fatblock v (v.fatofs cn)).bo = 0 ∨ held.isNone then
          bread io s.disk (fatblock v (v.fatofs cn)) else held) = none
        ∨ ∃ buf, (if (fatblock v (v.fatofs cn)).bo = 0 ∨ held.isNone then
          bread io s.disk (fatblock v (v.fatofs cn)) else held) = some buf
          ∧ BufFor v (v.table s.disk) cn buf := by
      by_cases hnew : (fatblock v (v.fatofs cn)).bo = 0 ∨ held.isNone
      · rw [if_pos hnew]
        cases hio : io (fatblock v (v.fatofs cn)).bn with
        | false => exact .inl (by rw [bread, hio]; rfl)
        | true =>
          obtain ⟨buf, hread, hsize, hholds⟩ := bread_holds (d := s.disk) hmax hio
          exact .inr ⟨buf, hread, hsize, hholds⟩
      · rw [if_neg hnew]
        rw [not_or] at hnew
        cases held with
        | none => exact absurd rfl hnew.2
        | some buf =>
          obtain ⟨hbuf, hlt⟩ := hheld buf rfl
          have hprev : cn - 1 + 1 = cn := Nat.sub_add_cancel (by omega)
          refine .inr ⟨buf, rfl, ?_⟩
          have hnext := hbuf.next (by rw [hprev]; exact hmax) (by rw [hprev]; exact hnew.1)
          rwa [hprev] at hnext
    obtain hnone | ⟨buf, hbuf, hfor⟩ := hblock
    · simp only [hnone]
      exact ⟨s, _, rfl, rfl, fun w hw => .inl hw, .inl rfl⟩
    rw [← hfor.1] at hin
    have hand := and_mask_eq v.type (cn % 2 = 1)
      (getLe buf.data (fatblock v (v.fatofs cn)).bo v.type.bytes) (getLe_lt v.type _ _)
    rw [hfor.2.entry hin hofs] at hand
    simp only [decide_eq_true_eq] at hand
    have hzero : BitVec.ofNat 32 (v.entry (v.table s.disk) cn) = 0
        ↔ cn ∈ v.freeSet (v.table s.disk) := by
      rw [ofNat_entry_eq_zero, mem_freeSet]
      exact ⟨fun hz => ⟨⟨h2, hmax⟩, hz⟩, fun hmem => hmem.2⟩
    simp only [hbuf, getWord_eq hin, hand, hzero]
    have hlook := h.look ⟨h2, hmax⟩
    obtain ⟨s₁, hs₁⟩ : ∃ t, (if cn ∈ v.freeSet (v.table s.disk) then usemapFree cn s else s) = t :=
      ⟨_, rfl⟩
    have hdisk₁ : s₁.disk = s.disk := by
      rw [← hs₁]
      split
      · rfl
      · rfl
    have haccess₁ : Accesses v s s₁ := by
      rw [← hs₁]
      split
      · exact accesses_free ⟨h2, hmax⟩
      · exact fun w hw => .inl hw
    rw [hs₁] at hlook ⊢
    obtain ⟨s', res, hrun, hdisk, haccess, hres⟩ := @ih s₁ (cn + 1) (some buf) (by omega) (by omega)
      (by
        intro buf' heq
        obtain rfl := Option.some.inj heq
        rw [hdisk₁, Nat.add_sub_cancel]
        exact ⟨hfor, by omega⟩)
      (by
        rw [hdisk₁]
        exact hlook)
    refine ⟨s', res, hrun, hdisk.trans hdisk₁, fun w hw => ?_, ?_⟩
    · obtain hw | hw := haccess w hw
      · exact haccess₁ w hw
      · exact .inr hw
    · rw [hdisk₁, Nat.add_assoc, Nat.add_comm 1 n] at hres
      exact hres

/-- A volume is mounted with the bitmap that its table has. -/
theorem fillinusemap_ok (hv : v.Plain) (hwords : s.words = [])
    (hfill : fillinusemap v io s = (s', .ok ())) : MapOk v s' := by
  have hlast := hv.last
  have hfirst : clustFirst = 2 := rfl
  obtain ⟨hdisk, hones, hlog⟩ := fillWords_spec ((v.maxcluster + 32) / 32) s
  rw [fillinusemap] at hfill
  generalize fillWords ((v.maxcluster + 32) / 32) s = t at hfill hdisk hones hlog
  have hnone : (v.freeSet (v.table t.disk)).filter (· < clustFirst) = ∅ := by
    refine Finset.filter_eq_empty_iff.mpr fun cn hcn => ?_
    exact Nat.not_lt.mpr (mem_freeSet.mp hcn).1.1
  have hstart : Tracks v ((v.freeSet (v.table t.disk)).filter (· < clustFirst))
      { t with freecount := 0 } := by
    rw [hnone]
    refine ⟨fun cn hcn => absurd hcn (Finset.notMem_empty cn), fun cn hcn => ?_, rfl⟩
    have hset : Bitmap.bit t.inuse cn = true :=
      Bitmap.bit_of_allOnes (by decide) (hones (cn / 32) (by omega))
    exact ⟨fun hclear => absurd (hset.symm.trans hclear) (by decide),
      fun hmem => absurd hmem (Finset.notMem_empty cn)⟩
  obtain ⟨s₁, res, hrun, hsame, haccess, hres⟩ := @fillLoop_spec v io { t with freecount := 0 }
    (v.maxcluster + 1 - clustFirst) clustFirst none (by omega) le_rfl nofun hstart
  rw [hrun] at hfill
  obtain ⟨rfl, rfl⟩ := Prod.mk.inj hfill
  obtain heio | ⟨-, htracks⟩ := hres
  · cases heio
  have hall : (v.freeSet (v.table t.disk)).filter
      (· < clustFirst + (v.maxcluster + 1 - clustFirst)) = v.freeSet (v.table t.disk) := by
    refine Finset.filter_eq_self.mpr fun cn hcn => ?_
    have hle := (mem_freeSet.mp hcn).1.2
    omega
  refine ⟨?_, fun w hw => ?_⟩
  · rw [hsame]
    exact hall ▸ htracks
  · refine hv.bmapsiz ((haccess w hw).elim (fun hw => ?_) id)
    obtain hw | hw := hlog w hw
    · rw [hwords] at hw
      cases hw
    · omega

/-! ## Runs -/

inductive Op where
  | alloc (usec start count : Nat) (fill : BitVec 32)
  | free (cluster : Nat)
  | freeChain (cluster : BitVec 32)
  | extend (usec : Nat) (pcb : Pcbmap) (count : Nat) (dep : Denode)

/-- An operation with what can be read during it. -/
def step (v : Volume) (s : St) : (Nat → Bool) × Op → Option St
  | (io, .alloc usec start count fill) => some (clusteralloc v io usec start count fill s).1
  | (io, .free cluster) => some (clusterfree v io cluster s).1
  | (io, .freeChain cluster) => some (freeclusterchain v io cluster s).1
  | (io, .extend usec pcb count dep) => some (extendfile v io usec pcb count dep s).1

/-- What the operations rely on: entries of free clusters can be read
before they are allocated, and only clusters in use are freed or followed
by others. -/
def OpOk (v : Volume) (s : St) : (Nat → Bool) × Op → Prop
  | (io, .alloc _ start count fill) => 0 < count ∧ start ≤ v.maxcluster + 1
      ∧ fill.toNat % v.type.values ≠ 0 ∧ ReadableFree v io s
  | (_, .free cluster) => v.InRange cluster ∧ v.entry (v.table s.disk) cluster ≠ 0
  | (_, .freeChain cluster) => ChainInUse v (v.table s.disk) cluster.toNat
  | (io, .extend _ pcb _ dep) => ReadableFree v io s
      ∧ (dep.frcn ≠ fceEmpty → LastInUse v (v.table s.disk) dep)
      ∧ ∀ frcn fsrcn, pcb = .e2big frcn fsrcn →
        LastInUse v (v.table s.disk) { dep with frcn := frcn, fsrcn := fsrcn }

theorem extendfile_ok (hv : v.Plain) {usec count : Nat} {pcb : Pcbmap} {dep : Denode} (h : MapOk v s)
    (hok : OpOk v s (io, .extend usec pcb count dep)) :
    MapOk v (extendfile v io usec pcb count dep s).1 := by
  obtain ⟨hio, hcached, hasked⟩ := hok
  unfold extendfile
  split
  · exact h
  split
  · cases pcb with
    | found => exact h
    | failed e => exact h
    | e2big frcn fsrcn => exact extendLoop_ok hv usec count h hio (hasked frcn fsrcn rfl)
  · rename_i hask
    refine extendLoop_ok hv usec count h hio fun hstart => ?_
    exact hcached (fun hempty => hask ⟨hempty, hstart⟩) hstart

theorem step_ok (hv : v.Plain) (s : St) (a : (Nat → Bool) × Op) (s' : St) (hok : OpOk v s a)
    (hstep : step v s a = some s') (h : MapOk v s) : MapOk v s' := by
  obtain ⟨io, op⟩ := a
  cases op with
  | alloc usec start count fill =>
    obtain rfl := Option.some.inj hstep
    obtain ⟨hcount, hstart, hfill, hio⟩ := hok
    obtain ⟨s₁, res, hrun, h₁, -⟩ := clusteralloc_spec hv hfill usec h hio hcount hstart
    rw [hrun]
    exact h₁
  | free cluster =>
    obtain rfl := Option.some.inj hstep
    exact clusterfree_ok hv h hok.1 hok.2
  | freeChain cluster =>
    obtain rfl := Option.some.inj hstep
    exact freeclusterchain_ok hv io cluster h hok
  | extend usec pcb count dep =>
    obtain rfl := Option.some.inj hstep
    exact extendfile_ok hv h hok

/-- The number of clear bits of the bitmap. -/
def clearBits (v : Volume) (map : Nat → BitVec 32) : Nat :=
  ((Finset.Icc clustFirst v.maxcluster).filter fun cn => Bitmap.bit map cn = false).card

theorem MapOk.bit (h : MapOk v s) {cn : Nat} (hin : v.InRange cn) :
    Bitmap.bit s.inuse cn = false ↔ v.entry (v.table s.disk) cn = 0 := by
  rw [h.tracks.bits cn (inRange_lt hin), mem_freeSet]
  exact ⟨fun hmem => hmem.2, fun hzero => ⟨hin, hzero⟩⟩

theorem MapOk.clearBits (h : MapOk v s) : s.freecount.toNat = clearBits v s.inuse := by
  have hset : v.freeSet (v.table s.disk)
      = (Finset.Icc clustFirst v.maxcluster).filter fun cn => Bitmap.bit s.inuse cn = false := by
    refine Finset.filter_congr fun cn hcn => ?_
    exact (h.bit (Finset.mem_Icc.mp hcn)).symm
  have hcard : (v.freeSet (v.table s.disk)).card ≤ (Finset.Icc clustFirst v.maxcluster).card :=
    Finset.card_filter_le _ _
  have hlt := v.maxcluster_lt
  rw [Nat.card_Icc] at hcard
  rw [h.tracks.count, BitVec.toNat_ofNat, Nat.mod_eq_of_lt (by omega), hset]
  rfl

/-- After a volume is mounted, and after any operations that meet their
conditions, the bitmap and the counter agree with the table and no word
outside of the bitmap has been accessed; and clusteralloc finds free
clusters, or fails because there is none. -/
theorem inuse_map_follows (v : Volume) (hv : v.Plain) (io : Nat → Bool) (s₀ s₁ s : St)
    (hnew : s₀.words = []) (hmount : fillinusemap v io s₀ = (s₁, .ok ()))
    (hrun : Runs (step v) (OpOk v) s₁ s) :
    (∀ cn, v.InRange cn →
      (Bitmap.bit s.inuse cn = true ↔ v.entry (v.table s.disk) cn ≠ 0))
    ∧ s.freecount.toNat = clearBits v s.inuse
    ∧ (∀ w ∈ s.words, w < v.bmapsiz)
    ∧ ∀ io usec start count fill, OpOk v s (io, .alloc usec start count fill) →
      (∀ cn got, (clusteralloc v io usec start count fill s).2 = .ok (cn, got) →
        got ≤ count ∧ ∀ i < got, v.InRange (cn + i) ∧ Bitmap.bit s.inuse (cn + i) = false)
      ∧ ((clusteralloc v io usec start count fill s).2 = .error .enospc
        ↔ ∀ cn, v.InRange cn → v.entry (v.table s.disk) cn ≠ 0) := by
  have h : MapOk v s := Runs.invariant (step_ok hv) hrun (fillinusemap_ok hv hnew hmount)
  refine ⟨fun cn hin => ?_, h.clearBits, h.words, ?_⟩
  · rw [Ne, ← h.bit hin, Bool.not_eq_false]
  intro io usec start count fill ⟨hcount, hstart, hfill, hio⟩
  obtain ⟨s', res, hrun, -, hres⟩ := clusteralloc_spec hv hfill usec h hio hcount hstart
  rw [hrun]
  match res, hres with
  | .ok (cn, got), ⟨hpos, hle, hfree, _⟩ =>
    refine ⟨fun cn' got' heq => ?_, ⟨nofun, fun hfull => ?_⟩⟩
    · obtain ⟨rfl, rfl⟩ := Prod.mk.inj (Except.ok.inj heq)
      refine ⟨hle, fun i hi => ?_⟩
      have hmem := mem_freeSet.mp (hfree i hi)
      exact ⟨hmem.1, (h.bit hmem.1).mpr hmem.2⟩
    · have hmem := mem_freeSet.mp (hfree 0 hpos)
      exact absurd hmem.2 (hfull _ hmem.1)
  | .error e, ⟨he, hempty, _⟩ =>
    refine ⟨nofun, ⟨fun _ cn hin hzero => ?_, fun _ => congrArg _ he⟩⟩
    have hmem : cn ∈ v.freeSet (v.table s.disk) := mem_freeSet.mpr ⟨hin, hzero⟩
    rw [hempty] at hmem
    exact absurd hmem (Finset.notMem_empty cn)

/-- A small volume, with clusters up to `max`. -/
def smallVolume (max : Nat) (h : max < 340) : Volume where
  type := .fat12
  blkPerSec := 1
  fatblk := 1
  fatSecs := 1
  fats := 1
  curfat := 0
  mirror := true
  maxcluster := max
  blk_pos := Nat.one_pos
  fits := h
  few := fun _ => by omega
  current := @Nat.eq_of_beq_eq_true 0 0
  reach := by decide

/-- A small volume without files is mounted. -/
def smallMounted (max : Nat) (h : max < 340) : St :=
  (fillinusemap (smallVolume max h) (fun _ => true) ⟨fun _ => 0, fun _ => 0, 0, []⟩).1

/-- Three of four clusters are taken. -/
theorem inuse_map_follows_small :
    (clusteralloc (smallVolume 5 (by decide)) (fun _ => true) 0 0 3 clustEofe
      (smallMounted 5 (by decide))).1.freecount.toNat = 1
    ∧ (clusteralloc (smallVolume 5 (by decide)) (fun _ => true) 0 0 3 clustEofe
        (smallMounted 5 (by decide))).1.freecount.toNat
      = clearBits (smallVolume 5 (by decide)) (clusteralloc (smallVolume 5 (by decide))
        (fun _ => true) 0 0 3 clustEofe (smallMounted 5 (by decide))).1.inuse := by
  refine ⟨by decide +kernel, ?_⟩
  refine (inuse_map_follows (smallVolume 5 (by decide)) ⟨by decide, by decide, by decide⟩
    (fun _ => true) ⟨fun _ => 0, fun _ => 0, 0, []⟩ (smallMounted 5 (by decide)) _ rfl
    (Prod.ext rfl rfl) (.tail .refl ⟨(fun _ => true, .alloc 0 0 3 clustEofe), ?_, rfl⟩)).2.1
  exact ⟨by decide, by decide, by decide, fun _ _ => rfl⟩

/-- A cluster is marked in use and its entry stays free, because the table
cannot be read; the bitmap of a volume with 31 clusters is a word short for
them; and on one with 30 it is a word short for the place behind the
last. -/
theorem inuse_map_wrong :
    Bitmap.bit (clusteralloc (smallVolume 5 (by decide)) (fun _ => false) 0 0 1 clustEofe
      (smallMounted 5 (by decide))).1.inuse 3 = true
    ∧ (smallVolume 5 (by decide)).entry ((smallVolume 5 (by decide)).table
      (clusteralloc (smallVolume 5 (by decide)) (fun _ => false) 0 0 1 clustEofe
        (smallMounted 5 (by decide))).1.disk) 3 = 0
    ∧ 1 ∈ (smallMounted 32 (by decide)).words ∧ (smallVolume 32 (by decide)).bmapsiz = 1
    ∧ 1 ∈ (clusteralloc (smallVolume 31 (by decide)) (fun _ => true) 0 32 1 clustEofe
      (smallMounted 31 (by decide))).1.words ∧ (smallVolume 31 (by decide)).bmapsiz = 1 := by
  decide +kernel

end Obsd.Fat
