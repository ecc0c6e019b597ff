import Obsd.MsdosFatTable

/-!
# What the operations do to the table

`fatentry` sets one entry, `fatchain` does what a row of calls of
`fatentry` does, and `freeclusterchain` frees the entries it comes to. The
last goes wrong at the end of a chain: where `fatentry` turns a reserved
value into one that is no cluster of any volume, `freeclusterchain` turns
it into the largest value of an entry, and this is the number of a cluster
if the volume has that many.
-/

namespace Obsd.Fat

variable {v : Volume} {io : Nat → Bool} {s t : St} {cn : Nat}

/-! ## fatentry -/

/-- The entry of a cluster is set, or read, or both. -/
theorem fatentry_eq (h2 : clustFirst ≤ cn) (hmax : cn ≤ v.maxcluster)
    (hio : io (fatblock v (v.fatofs cn)).bn = true) (get set : Bool) (new : BitVec 32) :
    ∃ disk, fatentry v io get set cn new s = ({ s with disk := disk },
        .ok (if get then v.mapped (BitVec.ofNat 32 (v.entry (v.table s.disk) cn)) else 0))
      ∧ v.table disk = if set then v.setEntry (v.table s.disk) cn new else v.table s.disk := by
  obtain ⟨hbn, hofs, hin, hend⟩ := fatblock_spec hmax
  obtain ⟨buf, hread, hsize, hholds⟩ := bread_holds (d := s.disk) hmax hio
  rw [← hsize] at hin hend
  have hget : (if get then readEntry v buf (fatblock v (v.fatofs cn)).bo cn else some 0)
      = some (if get then v.mapped (BitVec.ofNat 32 (v.entry (v.table s.disk) cn)) else 0) := by
    cases get with
    | false => rfl
    | true =>
      rw [if_pos rfl, if_pos rfl, readEntry_eq hin, hholds.entry hin hofs]
  rw [fatentry, if_neg (by omega)]
  simp only [hread, hget]
  cases set with
  | false => exact ⟨s.disk, rfl, rfl⟩
  | true =>
    rw [if_pos rfl, writeEntry_eq hin]
    refine ⟨_, rfl, ?_⟩
    rw [if_pos rfl, table_updatefats (b := setBuf v buf _ cn new) hbn hend]
    refine (hholds.set hin hofs new).overlay fun a ha => setEntry_of_outside new ?_
    have hsame : (setBuf v buf (fatblock v (v.fatofs cn)).bo cn new).size = buf.size := rfl
    omega

theorem fatentry_of_outside (h : cn < clustFirst ∨ v.maxcluster < cn) (get set : Bool)
    (new : BitVec 32) : fatentry v io get set cn new s = (s, .error .einval) := if_pos h

theorem fatentry_of_unreadable (h : ¬ (cn < clustFirst ∨ v.maxcluster < cn))
    (hio : io (fatblock v (v.fatofs cn)).bn = false) (get set : Bool) (new : BitVec 32) :
    fatentry v io get set cn new s = (s, .error .eio) := by
  rw [fatentry, if_neg h]
  simp only [bread, hio]
  rfl

/-! ## fatchain -/

/-- The calls of fatentry that a call of fatchain stands for, up to the
first that fails. -/
def singles (v : Volume) (io : Nat → Bool) (fill : BitVec 32) : Nat → Nat → St → St × Except Err Unit
  | 0, _, s => (s, .ok ())
  | count + 1, start, s =>
    match fatentry v io false true start
      (if 0 < count then BitVec.ofNat 32 (start + 1) else fill) s with
    | (s', .error e) => (s', .error e)
    | (s', .ok _) => singles v io fill count (start + 1) s'

/-- Two states with the same table, and the same otherwise. -/
structure SameTable (v : Volume) (s t : St) : Prop where
  table : v.table s.disk = v.table t.disk
  inuse : s.inuse = t.inuse
  freecount : s.freecount = t.freecount
  words : s.words = t.words

theorem SameTable.refl (v : Volume) (s : St) : SameTable v s s := ⟨rfl, rfl, rfl, rfl⟩

/-- The entries of the table follow one another in steps of chainStep. -/
theorem fatofs_succ (h : cn + 1 ≤ v.maxcluster) :
    v.fatofs (cn + 1) = v.fatofs cn + chainStep v (cn + 1) := by
  rw [fatofs_eq h, fatofs_eq (by omega), chainStep]
  cases v.type with
  | fat12 =>
    show (cn + 1) * 3 / 2 = cn * 3 / 2 + if (cn + 1) % 2 = 1 then 1 else 2
    split <;> omega
  | fat16 =>
    show (cn + 1) * 2 / 1 = cn * 2 / 1 + 2
    omega
  | fat32 =>
    show (cn + 1) * 4 / 1 = cn * 4 / 1 + 4
    omega

/-- An entry that starts inside a block belongs to it. -/
theorem same_block {cn' : Nat} (hlo : v.blkStart cn ≤ v.fatofs cn')
    (hhi : v.fatofs cn' < v.blkStart cn + v.fatblocksize) :
    v.fatofs cn' / v.fatblocksize = v.fatofs cn / v.fatblocksize := by
  refine Nat.div_eq_of_lt_le hlo ?_
  rwa [Nat.add_mul, Nat.one_mul]

theorem block_of_div {cn' : Nat}
    (h : v.fatofs cn' / v.fatblocksize = v.fatofs cn / v.fatblocksize) :
    (fatblock v (v.fatofs cn')).bn = (fatblock v (v.fatofs cn)).bn
      ∧ (fatblock v (v.fatofs cn')).size = (fatblock v (v.fatofs cn)).size
      ∧ v.blkStart cn' = v.blkStart cn := by
  refine ⟨?_, ?_, ?_⟩
  · show _ / _ * _ + _ = _ / _ * _ + _
    rw [h]
  · show min _ (_ - _ / _ * _) * _ = min _ (_ - _ / _ * _) * _
    rw [h]
  · rw [Volume.blkStart, Volume.blkStart, h]

/-- What is written for a cluster of a chain with `left` more after it. -/
def chainValue (fill : BitVec 32) (left start : Nat) : BitVec 32 :=
  if 0 < left then BitVec.ofNat 32 (start + 1) else fill

/-- The table with the first `k` entries of a chain of `count` clusters
set. -/
def setRow (v : Volume) (fill : BitVec 32) : Nat → Nat → Nat → Mem → Mem
  | 0, _, _, tab => tab
  | k + 1, count, start, tab =>
    setRow v fill k (count - 1) (start + 1)
      (v.setEntry tab start (chainValue fill (count - 1) start))

/-- The first `k` calls, if their blocks can be read. -/
theorem singles_row (fill : BitVec 32) (k : Nat) {count start : Nat} (hk : k ≤ count)
    (h2 : clustFirst ≤ start) (hmax : start + k ≤ v.maxcluster + 1)
    (hio : ∀ i < k, io (fatblock v (v.fatofs (start + i))).bn = true) :
    ∃ disk, v.table disk = setRow v fill k count start (v.table s.disk)
      ∧ singles v io fill count start s
        = singles v io fill (count - k) (start + k) { s with disk := disk } := by
  induction k generalizing count start s with
  | zero => exact ⟨s.disk, rfl, rfl⟩
  | succ k ih =>
    obtain ⟨count, rfl⟩ : ∃ c, count = c + 1 := ⟨count - 1, by omega⟩
    obtain ⟨d, hd, htab⟩ := fatentry_eq (s := s) h2 (by omega) (hio 0 (by omega)) false true
      (chainValue fill count start)
    obtain ⟨d', htab', hrest⟩ := @ih { s with disk := d } count (start + 1) (by omega) (by omega)
      (by omega) fun i hi => by
        rw [Nat.add_assoc, Nat.add_comm 1 i]
        exact hio (i + 1) (by omega)
    refine ⟨d', ?_, ?_⟩
    · rw [htab', setRow, Nat.add_sub_cancel]
      exact congrArg _ htab
    · rw [singles]
      unfold chainValue at hd
      rw [hd]
      refine hrest.trans ?_
      rw [Nat.add_sub_add_right, Nat.add_assoc, Nat.add_comm 1 k]

/-- The row of entries that one block gets. -/
structure Row (v : Volume) (fill : BitVec 32) (tab : Mem) (count start : Nat) (buf : Buf)
    (k : Nat) (buf' : Buf) : Prop where
  pos : 0 < k
  le : k ≤ count
  size : buf'.size = buf.size
  block : ∀ i < k, v.fatofs (start + i) / v.fatblocksize = v.fatofs start / v.fatblocksize
  holds : Holds (setRow v fill k count start tab) (v.blkStart start) buf'
  frame : ∀ a, a < v.blkStart start ∨ v.blkStart start + buf.size ≤ a →
    setRow v fill k count start tab a = tab a

theorem size_le_blocksize (ofs : Nat) : (fatblock v ofs).size ≤ v.fatblocksize := by
  rw [v.blocksize_eq]
  exact Nat.mul_le_mul_right _ (min_le_left _ _)

theorem Row.one (fill : BitVec 32) {tab : Mem} {count start : Nat} {buf : Buf}
    (hcount : 0 < count) (hmax : start ≤ v.maxcluster)
    (hsize : buf.size = (fatblock v (v.fatofs start)).size)
    (hholds : Holds tab (v.blkStart start) buf) :
    Row v fill tab count start buf 1 (setBuf v buf (fatblock v (v.fatofs start)).bo start
      (chainValue fill (count - 1) start)) := by
  obtain ⟨-, hofs, hin, -⟩ := fatblock_spec hmax
  rw [← hsize] at hin
  refine ⟨Nat.one_pos, hcount, rfl, ?_, hholds.set hin hofs _, ?_⟩
  · intro i hi
    rw [Nat.lt_one_iff.mp hi, Nat.add_zero]
  · intro a ha
    exact setEntry_of_outside _ (by omega)

/-- One entry and then the rest of the block. -/
theorem Row.cons {fill : BitVec 32} {tab : Mem} {count start k : Nat} {buf buf' buf'' : Buf}
    (hone : Row v fill tab (count + 1) start buf 1 buf')
    (hblock : v.fatofs (start + 1) / v.fatblocksize = v.fatofs start / v.fatblocksize)
    (hrest : Row v fill (setRow v fill 1 (count + 1) start tab) count (start + 1) buf' k buf'') :
    Row v fill tab (count + 1) start buf (k + 1) buf'' := by
  have hstart : v.blkStart (start + 1) = v.blkStart start := (block_of_div hblock).2.2
  have hholds := hrest.holds
  have hframe := hrest.frame
  rw [hstart] at hholds hframe
  rw [hone.size] at hframe
  refine ⟨Nat.succ_pos k, Nat.succ_le_succ hrest.le, hrest.size.trans hone.size, ?_, hholds, ?_⟩
  · intro i hi
    cases i with
    | zero => rfl
    | succ i =>
      have hi' := hrest.block i (by omega)
      rw [Nat.add_assoc, Nat.add_comm 1 i] at hi'
      exact hi'.trans hblock
  · intro a ha
    exact (hframe a ha).trans (hone.frame a ha)

/-- The inner loop of fatchain sets a row of entries, and all of them are
in the block. -/
theorem chainBlock_row (fill : BitVec 32) (count : Nat) {tab : Mem} {start : Nat} {buf : Buf}
    (hcount : 0 < count) (hmax : start + count ≤ v.maxcluster + 1)
    (hsize : buf.size = (fatblock v (v.fatofs start)).size)
    (hholds : Holds tab (v.blkStart start) buf) :
    ∃ k buf', chainBlock v fill count start (fatblock v (v.fatofs start)).bo buf
        = some (buf', count - k) ∧ Row v fill tab count start buf k buf' := by
  induction count generalizing tab start buf with
  | zero => exact absurd hcount (by decide)
  | succ count ih =>
    obtain ⟨-, hofs, hin, -⟩ := fatblock_spec (show start ≤ v.maxcluster by omega)
    rw [← hsize] at hin
    have hone := Row.one fill hcount (by omega) hsize hholds
    rw [chainBlock, chainEntry_eq, writeEntry_eq hin, Option.bind_eq_bind, Option.bind_some]
    by_cases hend : buf.size ≤ (fatblock v (v.fatofs start)).bo + chainStep v (start + 1)
    · rw [if_pos hend]
      exact ⟨1, _, rfl, hone⟩
    rw [if_neg hend]
    by_cases hlast : count = 0
    · subst hlast
      exact ⟨1, _, rfl, hone⟩
    -- The next entry starts inside the block, and so belongs to it.
    have hnext := fatofs_succ (show start + 1 ≤ v.maxcluster by omega)
    have hle := size_le_blocksize (v := v) (v.fatofs start)
    have hblock : v.fatofs (start + 1) / v.fatblocksize = v.fatofs start / v.fatblocksize :=
      same_block (by omega) (by omega)
    obtain ⟨-, hsize', hstart'⟩ := block_of_div hblock
    have hofs' := (fatblock_spec (show start + 1 ≤ v.maxcluster by omega)).2.1
    have hbo : (fatblock v (v.fatofs start)).bo + chainStep v (start + 1)
        = (fatblock v (v.fatofs (start + 1))).bo := by omega
    rw [hbo]
    obtain ⟨k, buf', hrun, hrow⟩ := @ih _ (start + 1) (setBuf v buf _ start _) (by omega)
      (by omega) (hsize.trans hsize'.symm) (hstart' ▸ hone.holds)
    refine ⟨k + 1, buf', ?_, Row.cons hone hblock hrow⟩
    rw [Nat.add_sub_add_right]
    exact hrun

/-- The outer loop of fatchain does what the calls of fatentry do. -/
theorem chainLoop_eq (fill : BitVec 32) (turns : Nat) {start count : Nat} (hturns : count ≤ turns)
    (h2 : clustFirst ≤ start) (hmax : start + count ≤ v.maxcluster + 1)
    (hsame : SameTable v s t) :
    (chainLoop v io fill turns start count s).2 = (singles v io fill count start t).2
      ∧ SameTable v (chainLoop v io fill turns start count s).1
        (singles v io fill count start t).1 := by
  induction turns generalizing start count s t with
  | zero =>
    rw [Nat.le_zero.mp hturns]
    exact ⟨rfl, hsame⟩
  | succ turns ih =>
    by_cases hcount : count = 0
    · rw [hcount, chainLoop, if_pos rfl]
      exact ⟨rfl, hsame⟩
    rw [chainLoop, if_neg hcount]
    have hstart : start ≤ v.maxcluster := by omega
    cases hio : io (fatblock v (v.fatofs start)).bn with
    | false =>
      obtain ⟨count, rfl⟩ : ∃ c, count = c + 1 := ⟨count - 1, by omega⟩
      rw [singles, fatentry_of_unreadable (by omega) hio]
      simp only [bread, hio]
      exact ⟨rfl, hsame⟩
    | true =>
      obtain ⟨hbn, -, -, hend⟩ := fatblock_spec hstart
      obtain ⟨buf, hread, hsize, hholds⟩ := bread_holds (d := s.disk) hstart hio
      obtain ⟨k, buf', hrun, hrow⟩ := chainBlock_row fill count (by omega) hmax hsize hholds
      simp only [hread, hrun]
      have hk := hrow.le
      have hpos := hrow.pos
      have hrow_max : start + k ≤ v.maxcluster + 1 := by omega
      have hrow_io : ∀ i < k, io (fatblock v (v.fatofs (start + i))).bn = true := fun i hi => by
        rw [(block_of_div (hrow.block i hi)).1, hio]
      obtain ⟨d, htab, hsingles⟩ := singles_row (s := t) fill k hk h2 hrow_max hrow_io
      have hwrite : v.table (updatefats v s.disk (fatblock v (v.fatofs start)).bn buf')
          = setRow v fill k count start (v.table s.disk) := by
        rw [table_updatefats hbn (by rw [hrow.size, hsize]; exact hend)]
        refine hrow.holds.overlay fun a ha => hrow.frame a ?_
        rwa [hrow.size] at ha
      rw [hsingles, Nat.sub_sub_self hk]
      have htables : v.table (updatefats v s.disk (fatblock v (v.fatofs start)).bn buf')
          = v.table d := by
        rw [hwrite, htab, hsame.table]
      refine ih ?_ ?_ ?_ ⟨htables, hsame.inuse, hsame.freecount, hsame.words⟩
      · omega
      · omega
      · omega

/-- fatchain leaves the same table as the calls of fatentry it stands for,
and fails where they fail. -/
theorem fatchain_eq (fill : BitVec 32) {start count : Nat} (h2 : clustFirst ≤ start)
    (hmax : start + count ≤ v.maxcluster + 1) :
    (fatchain v io start count fill s).2 = (singles v io fill count start s).2
      ∧ SameTable v (fatchain v io start count fill s).1 (singles v io fill count start s).1 := by
  have hguard : ¬ (start < clustFirst ∨ v.maxcluster < (start + count + (2 ^ 32 - 1)) % 2 ^ 32) := by
    have hfirst : clustFirst = 2 := rfl
    omega
  rw [fatchain, if_neg hguard]
  exact chainLoop_eq fill count le_rfl h2 hmax (SameTable.refl v s)

end Obsd.Fat
