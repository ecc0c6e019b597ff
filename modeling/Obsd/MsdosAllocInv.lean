import Obsd.MsdosAllocMap
import Obsd.MsdosFatSpec

/-!
# The bitmap follows the table

`MapOk` says that the bitmap and the counter agree with the table, and that
no word was accessed that the bitmap does not have. Mounting a volume
establishes this and the operations keep it, but not always: the bitmap is
a word short if the number of the last cluster is a multiple of 32,
`clusteralloc` does not take back what it has marked if the table cannot be
read, and nobody notices when a free cluster is freed. `Volume.Plain` and
the conditions of the operations leave these cases out.
-/

namespace Obsd.Fat

variable {v : Volume} {io : Nat → Bool} {s s' : St} {tab : Mem}

/-! ## Free entries -/

/-- The clusters that are free in the table. -/
def Volume.freeSet (v : Volume) (tab : Mem) : Finset Nat :=
  (Finset.Icc clustFirst v.maxcluster).filter fun cn => v.entry tab cn = 0

theorem mem_freeSet {cn : Nat} : cn ∈ v.freeSet tab ↔ v.InRange cn ∧ v.entry tab cn = 0 := by
  rw [Volume.freeSet, Finset.mem_filter, Finset.mem_Icc]
  exact Iff.rfl

theorem freeSet_setEntry {cn : Nat} (h : v.InRange cn) {new : BitVec 32}
    (hnew : new.toNat % v.type.values ≠ 0) :
    v.freeSet (v.setEntry tab cn new) = (v.freeSet tab).erase cn := by
  ext a
  rw [Finset.mem_erase, mem_freeSet, mem_freeSet]
  by_cases ha : v.InRange a
  · rw [entry_setEntry h.2 ha.2]
    by_cases heq : a = cn <;> simp [heq, hnew]
  · simp [ha]

theorem freeSet_free {cn : Nat} (h : v.InRange cn) :
    v.freeSet (v.setEntry tab cn msdosfsfree) = insert cn (v.freeSet tab) := by
  ext a
  rw [Finset.mem_insert, mem_freeSet, mem_freeSet]
  by_cases ha : v.InRange a
  · rw [entry_free h.2 ha.2]
    by_cases heq : a = cn <;> simp [heq, ha, h]
  · have hne : a ≠ cn := fun heq => ha (heq ▸ h)
    simp [ha, hne]

/-- Clusters are numbered within the values of an entry. -/
theorem ofNat_mod_values_ne {cn : Nat} (hmask : v.maxcluster ≤ v.type.mask.toNat) (hpos : 0 < cn)
    (hle : cn ≤ v.maxcluster) : (BitVec.ofNat 32 cn).toNat % v.type.values ≠ 0 := by
  rw [BitVec.toNat_ofNat, values_eq, Nat.mod_eq_of_lt (show cn < 2 ^ 32 by omega),
    Nat.mod_eq_of_lt (by omega)]
  omega

/-- The clusters of a run leave a set, the first of them and the others. -/
theorem sdiff_Ico_succ (F : Finset Nat) (start n : Nat) :
    F \ Finset.Ico start (start + (n + 1))
      = F.erase start \ Finset.Ico (start + 1) (start + 1 + n) := by
  ext a
  simp only [Finset.mem_sdiff, Finset.mem_erase, Finset.mem_Ico]
  have hrest : (start + 1 ≤ a ∧ a < start + 1 + n) ∨ a = start
      ↔ start ≤ a ∧ a < start + (n + 1) := by omega
  tauto

/-- A row of entries gets numbers of clusters and the value at the end. -/
theorem freeSet_setRow (hmask : v.maxcluster ≤ v.type.mask.toNat) {fill : BitVec 32}
    (hfill : fill.toNat % v.type.values ≠ 0) (count : Nat) {start : Nat}
    (h2 : clustFirst ≤ start) (hmax : start + count ≤ v.maxcluster + 1) :
    v.freeSet (setRow v fill count count start tab)
      = v.freeSet tab \ Finset.Ico start (start + count) := by
  induction count generalizing start tab with
  | zero => rw [Nat.add_zero, Finset.Ico_self, Finset.sdiff_empty, setRow]
  | succ count ih =>
    have hvalue : (chainValue fill count start).toNat % v.type.values ≠ 0 := by
      unfold chainValue
      split
      · exact ofNat_mod_values_ne hmask (by omega) (by omega)
      · exact hfill
    rw [setRow, Nat.add_sub_cancel, ih (by omega) (by omega),
      freeSet_setEntry ⟨h2, by omega⟩ hvalue, sdiff_Ico_succ]

/-! ## The invariant -/

/-- The bitmap and the counter agree with the table, and only words of the
bitmap have been accessed. -/
structure MapOk (v : Volume) (s : St) : Prop where
  tracks : Tracks v (v.freeSet (v.table s.disk)) s
  words : ∀ w ∈ s.words, w < v.bmapsiz

/-- A volume on which the bitmap has a word for every cluster and for the
one behind the last, and entries can hold the numbers of all clusters. -/
structure Volume.Plain (v : Volume) : Prop where
  last : v.maxcluster % 32 ≠ 0
  behind : (v.maxcluster + 1) % 32 ≠ 0
  fits : v.maxcluster ≤ v.type.mask.toNat

theorem Volume.Plain.bmapsiz (h : v.Plain) {w : Nat} (hw : w ≤ v.maxcluster / 32) :
    w < v.bmapsiz := by
  have hlast := h.last
  unfold Volume.bmapsiz
  omega

theorem MapOk.reads (h : MapOk v s) (hv : v.Plain) (hr : Reads v s s') : MapOk v s' where
  tracks := by
    rw [hr.disk]
    exact h.tracks.reads hr
  words := fun w hw => (hr.words w hw).elim (h.words w) fun hle => hv.bmapsiz hle

/-- Only words of the bitmap have been accessed from `s` to `s'`. -/
def Accesses (v : Volume) (s s' : St) : Prop :=
  ∀ w ∈ s'.words, w ∈ s.words ∨ w ≤ v.maxcluster / 32

theorem accesses_alloc {cn : Nat} (h : v.InRange cn) : Accesses v s (usemapAlloc cn s) := by
  intro w hmem
  obtain rfl | hmem := List.mem_cons.mp hmem
  · exact .inr (Nat.div_le_div_right h.2)
  · exact .inl hmem

theorem Accesses.words (h : Accesses v s s') (hv : v.Plain) (hs : ∀ w ∈ s.words, w < v.bmapsiz) :
    ∀ w ∈ s'.words, w < v.bmapsiz :=
  fun w hw => (h w hw).elim (hs w) fun hle => hv.bmapsiz hle

/-! ## clusteralloc -/

theorem Run.range {F : Finset Nat} {start len : Nat} (h : Run F start len)
    (hF : ∀ cn ∈ F, v.InRange cn) (hpos : 0 < len) :
    clustFirst ≤ start ∧ start + len ≤ v.maxcluster + 1 := by
  have hfirst := (hF _ (h 0 hpos)).1
  have hlast := (hF _ (h (len - 1) (by omega))).2
  omega

theorem usemapAllocRun_spec (n : Nat) {F : Finset Nat} {start : Nat} (h : Tracks v F s)
    (hrun : Run F start n) :
    Tracks v (F \ Finset.Ico start (start + n)) (usemapAllocRun n start s)
      ∧ (usemapAllocRun n start s).disk = s.disk ∧ Accesses v s (usemapAllocRun n start s) := by
  induction n generalizing start s F with
  | zero =>
    rw [Nat.add_zero, Finset.Ico_self, Finset.sdiff_empty]
    exact ⟨h, rfl, fun w hw => .inl hw⟩
  | succ n ih =>
    have hfirst : start ∈ F := hrun 0 (by omega)
    have hrun' : Run (F.erase start) (start + 1) n := by
      intro i hi
      have hmem := hrun (i + 1) (by omega)
      rw [Finset.mem_erase]
      refine ⟨by omega, ?_⟩
      rwa [Nat.add_assoc, Nat.add_comm 1 i]
    obtain ⟨htracks, hdisk, hwords⟩ := ih (h.alloc hfirst) hrun'
    refine ⟨?_, hdisk, ?_⟩
    · rw [sdiff_Ico_succ]
      exact htracks
    · intro w hw
      obtain hw | hw := hwords w hw
      · exact accesses_alloc (h.range start hfirst) w hw
      · exact .inr hw

/-- fatchain on blocks that can be read. -/
theorem fatchain_ok {fill : BitVec 32} {start count : Nat} (h2 : clustFirst ≤ start)
    (hmax : start + count ≤ v.maxcluster + 1)
    (hio : ∀ i < count, io (fatblock v (v.fatofs (start + i))).bn = true) :
    ∃ s', fatchain v io start count fill s = (s', .ok ())
      ∧ v.table s'.disk = setRow v fill count count start (v.table s.disk)
      ∧ s'.inuse = s.inuse ∧ s'.freecount = s.freecount ∧ s'.words = s.words := by
  obtain ⟨hres, hsame⟩ := @fatchain_eq v io s fill start count h2 hmax
  obtain ⟨disk, htab, hrow⟩ := singles_row (s := s) fill count le_rfl h2 hmax hio
  rw [Nat.sub_self, singles] at hrow
  rw [hrow] at hres hsame
  exact ⟨_, Prod.ext rfl hres, hsame.table.trans htab, hsame.inuse, hsame.freecount, hsame.words⟩

/-- The blocks with the entries of free clusters can be read. -/
def ReadableFree (v : Volume) (io : Nat → Bool) (s : St) : Prop :=
  ∀ cn ∈ v.freeSet (v.table s.disk), io (fatblock v (v.fatofs cn)).bn = true

/-- What a call of clusteralloc comes to. -/
def AllocOk (v : Volume) (count : Nat) (s s' : St) : Except Err (Nat × Nat) → Prop
  | .ok (cn, got) => 0 < got ∧ got ≤ count ∧ Run (v.freeSet (v.table s.disk)) cn got
      ∧ v.freeSet (v.table s'.disk) = v.freeSet (v.table s.disk) \ Finset.Ico cn (cn + got)
  | .error e => e = .enospc ∧ v.freeSet (v.table s.disk) = ∅ ∧ s'.disk = s.disk

theorem chainalloc_spec (hv : v.Plain) {fill : BitVec 32} (hfill : fill.toNat % v.type.values ≠ 0)
    {start len count : Nat} (h : MapOk v s) (hpos : 0 < len) (hle : len ≤ count)
    (hrun : Run (v.freeSet (v.table s.disk)) start len) (hio : ReadableFree v io s) :
    ∃ s' res, chainalloc v io start len fill s = (s', res) ∧ MapOk v s'
      ∧ AllocOk v count s s' res := by
  obtain ⟨h2, hmax⟩ := hrun.range h.tracks.range hpos
  obtain ⟨htracks, hdisk, hwords⟩ := usemapAllocRun_spec len h.tracks hrun
  obtain ⟨s', hchain, htab, hinuse, hcount, hlog⟩ := @fatchain_ok v io (usemapAllocRun len start s)
    fill start len h2 hmax fun i hi => hio _ (hrun i hi)
  have hset : v.freeSet (v.table s'.disk)
      = v.freeSet (v.table s.disk) \ Finset.Ico start (start + len) := by
    rw [htab, hdisk, freeSet_setRow hv.fits hfill len h2 hmax]
  refine ⟨s', .ok (start, len), by rw [chainalloc, hchain], ⟨?_, ?_⟩, hpos, hle, hrun, hset⟩
  · rw [hset]
    refine ⟨htracks.range, ?_, ?_⟩
    · rw [hinuse]
      exact htracks.bits
    · rw [hcount]
      exact htracks.count
  · rw [hlog]
    exact hwords.words hv h.words

/-- What a call comes to does not depend on the words read before. -/
theorem AllocOk.of_reads {count : Nat} {s'' : St} {res : Except Err (Nat × Nat)}
    (hr : Reads v s s') (h : AllocOk v count s' s'' res) : AllocOk v count s s'' res := by
  match res, h with
  | .ok (cn, got), h =>
    simp only [AllocOk, hr.disk] at h
    exact h
  | .error e, h =>
    simp only [AllocOk, hr.disk] at h
    exact h

theorem ReadableFree.reads (h : ReadableFree v io s) (hr : Reads v s s') :
    ReadableFree v io s' := by
  unfold ReadableFree
  rw [hr.disk]
  exact h

theorem newst_lt (v : Volume) (start : Nat) : newst v start < v.maxcluster + 1 := by
  exact Nat.mod_lt _ (by omega)

section

variable (hv : v.Plain) {fill : BitVec 32} (hfill : fill.toNat % v.type.values ≠ 0)
include hv hfill

theorem allocFrom_spec {start len count : Nat} (h : MapOk v s) (hio : ReadableFree v io s)
    (hcount : 0 < count) (hrun : Run (v.freeSet (v.table s.disk)) start len) (hle : len ≤ count) :
    ∃ s' res, allocFrom v io start len count fill s = (s', res) ∧ MapOk v s'
      ∧ AllocOk v count s s' res := by
  rw [allocFrom]
  have hlt := newst_lt v start
  generalize newst v start = newst at hlt
  have hempty : Run (v.freeSet (v.table s.disk)) 0 0 := fun i hi => absurd hi (Nat.not_lt_zero i)
  obtain ⟨s₁, res₁, hsearch₁, hreads₁, hok₁⟩ := search_spec (v.maxcluster + 1 - newst) h.tracks
    hcount le_rfl (show v.maxcluster + 1 ≤ newst + (v.maxcluster + 1 - newst) by omega) hempty
    (Nat.zero_le _)
  have h₁ := h.reads hv hreads₁
  rw [hsearch₁]
  match res₁, hok₁ with
  | .hit cn, hok₁ =>
    obtain ⟨s', res, hchain, hmap, hok⟩ := chainalloc_spec hv hfill h₁ hcount le_rfl
      (hreads₁.disk ▸ hok₁) (hio.reads hreads₁)
    exact ⟨s', res, hchain, hmap, hok.of_reads hreads₁⟩
  | .best foundcn foundl, ⟨hrun₁, hle₁, _, hnone₁⟩ =>
    obtain ⟨s₂, res₂, hsearch₂, hreads₂, hok₂⟩ := @search_spec v _ s₁ newst count newst 0 foundcn foundl
      (h.tracks.reads hreads₁) hcount (show newst ≤ v.maxcluster + 1 by omega)
      (show newst ≤ 0 + newst by omega) hrun₁ hle₁
    have hreads := hreads₁.trans hreads₂
    have h₂ := h.reads hv hreads
    have hio₂ := hio.reads hreads
    simp only [hsearch₂]
    match res₂, hok₂ with
    | .hit cn, hok₂ =>
      obtain ⟨s', res, hchain, hmap, hok⟩ := chainalloc_spec hv hfill h₂ hcount le_rfl
        (hreads.disk ▸ hok₂) hio₂
      exact ⟨s', res, hchain, hmap, hok.of_reads hreads⟩
    | .best foundcn' foundl', ⟨hrun₂, hle₂, hmore, hnone₂⟩ =>
      by_cases hnothing : foundl' = 0
      · simp only [hnothing, if_true]
        refine ⟨s₂, _, rfl, h₂, rfl, ?_, hreads.disk⟩
        -- Neither part of the volume has a free cluster.
        refine Finset.eq_empty_of_forall_notMem fun cn hcn => ?_
        have hafter := hnone₁ (by omega) cn hcn
        have hbefore := hnone₂ hnothing cn hcn (Nat.zero_le cn)
        have hrange := (h.tracks.range cn hcn).2
        omega
      · simp only [hnothing, if_false]
        by_cases hlen : len = 0
        · simp only [hlen, ne_eq, not_true_eq_false, if_false]
          obtain ⟨s', res, hchain, hmap, hok⟩ := chainalloc_spec hv hfill h₂
            (Nat.pos_of_ne_zero hnothing) hle₂ (hreads.disk ▸ hrun₂) hio₂
          exact ⟨s', res, hchain, hmap, hok.of_reads hreads⟩
        · simp only [ne_eq, hlen, not_false_eq_true, if_true]
          obtain ⟨s', res, hchain, hmap, hok⟩ := chainalloc_spec hv hfill h₂
            (Nat.pos_of_ne_zero hlen) hle (hreads.disk ▸ hrun) hio₂
          exact ⟨s', res, hchain, hmap, hok.of_reads hreads⟩

/-- clusteralloc takes a run of free clusters, or fails because there is
none. -/
theorem clusteralloc_spec (usec : Nat) {start count : Nat} (h : MapOk v s)
    (hio : ReadableFree v io s) (hcount : 0 < count) (hstart : start ≤ v.maxcluster + 1) :
    ∃ s' res, clusteralloc v io usec start count fill s = (s', res) ∧ MapOk v s'
      ∧ AllocOk v count s s' res := by
  have hempty : ∀ start, Run (v.freeSet (v.table s.disk)) start 0 :=
    fun _ i hi => absurd hi (Nat.not_lt_zero i)
  rw [clusteralloc]
  by_cases hzero : start = 0
  · rw [if_neg (not_not.mpr hzero)]
    exact allocFrom_spec hv hfill h hio hcount (hempty _) (Nat.zero_le _)
  rw [if_pos hzero]
  have hbehind := hv.behind
  obtain ⟨s₁, len, hlength, hreads, hle, hrun, -⟩ := chainlength_spec h.tracks start count
    (by omega)
  have h₁ := h.reads hv hreads
  have hio₁ := hio.reads hreads
  have hrun₁ : Run (v.freeSet (v.table s₁.disk)) start len := hreads.disk ▸ hrun
  simp only [hlength]
  by_cases hlong : count ≤ len
  · rw [if_pos hlong]
    obtain ⟨s', res, hchain, hmap, hok⟩ := chainalloc_spec hv hfill h₁ hcount le_rfl
      (hrun₁.mono hlong) hio₁
    exact ⟨s', res, hchain, hmap, hok.of_reads hreads⟩
  · rw [if_neg hlong]
    obtain ⟨s', res, hfrom, hmap, hok⟩ := allocFrom_spec hv hfill h₁ hio₁ hcount hrun₁ hle
    exact ⟨s', res, hfrom, hmap, hok.of_reads hreads⟩

end

end Obsd.Fat
