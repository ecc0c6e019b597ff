import Obsd.MsdosFatFree

/-!
# The table as a map

Seen from outside the table is a map from clusters to values. `TableOk`
says what the functions of msdosfs_fat.c do to it: one entry is set, a row
of entries is set, the entries of a chain are freed, and nothing else
changes.
-/

namespace Obsd.Fat

variable {v : Volume} {io : Nat → Bool} {s : St} {tab tab' : Mem}

/-! ## Changes -/

/-- The entries of the clusters in `cs` become `x`, and nothing else
changes: not the other entries, which may share a byte with them, not the
reserved bits, and no other byte of the table. -/
structure Sets (v : Volume) (tab tab' : Mem) (cs : Set Nat) (x : Nat) : Prop where
  inside : ∀ cn ∈ cs, v.entry tab' cn = x
  others : ∀ cn, cn ≤ v.maxcluster → cn ∉ cs → v.entry tab' cn = v.entry tab cn
  reserved : ∀ cn, cn ≤ v.maxcluster → v.reserved tab' cn = v.reserved tab cn
  bytes : ∀ a, (∀ cn ∈ cs, a < v.fatofs cn ∨ v.fatofs cn + v.type.bytes ≤ a) → tab' a = tab a

theorem sets_setEntry {cn : Nat} (h : cn ≤ v.maxcluster) (new : BitVec 32) :
    Sets v tab (v.setEntry tab cn new) {cn} (new.toNat % v.type.values) where
  inside := by
    rintro _ rfl
    exact entry_setEntry_self tab new
  others := fun _ h' hne => entry_setEntry_of_ne tab new h h' hne
  reserved := fun _ h' => reserved_setEntry tab new h h'
  bytes := fun _ ha => setEntry_of_outside new (ha cn rfl)

/-- The entries of a list are freed one after the other. -/
theorem sets_free (cs : List Nat) (h : ∀ cn ∈ cs, cn ≤ v.maxcluster) :
    Sets v tab (cs.foldl (fun tab cn => v.setEntry tab cn msdosfsfree) tab) {cn | cn ∈ cs} 0 := by
  induction cs generalizing tab with
  | nil =>
    exact ⟨fun cn hcn => absurd hcn List.not_mem_nil, fun _ _ _ => rfl, fun _ _ => rfl,
      fun _ _ => rfl⟩
  | cons c cs ih =>
    have hc := h c List.mem_cons_self
    have hone : Sets v tab (v.setEntry tab c msdosfsfree) {c} (0 % v.type.values) :=
      sets_setEntry hc msdosfsfree
    have hrest := @ih (v.setEntry tab c msdosfsfree) fun cn hcn => h cn (List.mem_cons_of_mem _ hcn)
    refine ⟨fun cn hcn => ?_, fun cn hcn hnot => ?_, fun cn hcn => ?_, fun a ha => ?_⟩
    · by_cases hin : cn ∈ cs
      · exact hrest.inside cn hin
      · obtain rfl := (List.mem_cons.mp hcn).resolve_right hin
        exact (hrest.others cn hc hin).trans (hone.inside cn rfl)
    · have hnot' : ¬ (cn = c ∨ cn ∈ cs) := fun hor => hnot (List.mem_cons.mpr hor)
      rw [not_or] at hnot'
      exact (hrest.others cn hcn hnot'.2).trans (hone.others cn hcn hnot'.1)
    · exact (hrest.reserved cn hcn).trans (hone.reserved cn hcn)
    · refine (hrest.bytes a fun cn hcn => ha cn (List.mem_cons_of_mem _ hcn)).trans
        (hone.bytes a ?_)
      rintro _ rfl
      exact ha _ List.mem_cons_self

/-! ## Setting and getting -/

/-- Calls of fatentry with FAT_SET, one after the other. -/
def setAll (v : Volume) (io : Nat → Bool) : List (Nat × BitVec 32) → St → St
  | [], s => s
  | (cn, new) :: calls, s => setAll v io calls (fatentry v io false true cn new s).1

/-- A value that an entry can have: the number of a cluster, a value that
fits, or a reserved one. -/
def Volume.Storable (v : Volume) (x : BitVec 32) : Prop :=
  x.toNat ≤ v.maxcluster ∨ x ≤ v.type.mask ∨ clustRsrvd ≤ x

theorem fatentry_disk (get : Bool) {cn : Nat} (new : BitVec 32) :
    v.table (fatentry v io get true cn new s).1.disk = v.table s.disk
      ∨ v.InRange cn ∧ v.table (fatentry v io get true cn new s).1.disk
        = v.setEntry (v.table s.disk) cn new := by
  by_cases hout : cn < clustFirst ∨ v.maxcluster < cn
  · rw [fatentry_of_outside hout]
    exact .inl rfl
  cases hio : io (fatblock v (v.fatofs cn)).bn with
  | false =>
    rw [fatentry_of_unreadable hout hio]
    exact .inl rfl
  | true =>
    obtain ⟨disk, heq, htab⟩ := fatentry_eq (s := s) (by omega) (by omega) hio get true new
    rw [heq]
    exact .inr ⟨⟨by omega, by omega⟩, htab⟩

/-- Calls for other clusters leave an entry. -/
theorem entry_setAll {cn : Nat} (h : cn ≤ v.maxcluster) (calls : List (Nat × BitVec 32))
    (hne : ∀ call ∈ calls, call.1 ≠ cn) :
    v.entry (v.table (setAll v io calls s).disk) cn = v.entry (v.table s.disk) cn := by
  induction calls generalizing s with
  | nil => rfl
  | cons call calls ih =>
    refine (ih fun c hc => hne c (List.mem_cons_of_mem _ hc)).trans ?_
    obtain hsame | ⟨hr, hset⟩ := @fatentry_disk v io s false call.1 call.2
    · rw [hsame]
    · rw [hset, entry_setEntry_of_ne _ _ hr.2 h (hne call List.mem_cons_self).symm]

theorem values_eq (t : FatType) : t.values = t.mask.toNat + 1 := by
  cases t <;> rfl

/-- What is stored of a value. -/
theorem ofNat_mod_values (t : FatType) (x : BitVec 32) :
    BitVec.ofNat 32 (x.toNat % t.values) = x &&& t.mask := by
  refine BitVec.eq_of_toNat_eq ?_
  cases t with
  | fat12 =>
    refine Eq.trans ?_ (Nat.and_two_pow_sub_one_eq_mod x.toNat 12).symm
    exact Nat.mod_eq_of_lt ((Nat.mod_lt _ (by decide)).trans (by decide))
  | fat16 =>
    refine Eq.trans ?_ (Nat.and_two_pow_sub_one_eq_mod x.toNat 16).symm
    exact Nat.mod_eq_of_lt ((Nat.mod_lt _ (by decide)).trans (by decide))
  | fat32 =>
    refine Eq.trans ?_ (Nat.and_two_pow_sub_one_eq_mod x.toNat 28).symm
    exact Nat.mod_eq_of_lt ((Nat.mod_lt _ (by decide)).trans (by decide))

/-- A value that fits is stored as it is. -/
theorem and_mask_of_le (t : FatType) {x : BitVec 32} (h : x ≤ t.mask) : x &&& t.mask = x := by
  rw [← ofNat_mod_values, Nat.mod_eq_of_lt, BitVec.ofNat_toNat, BitVec.setWidth_eq]
  rw [values_eq]
  exact Nat.lt_succ_of_le h

/-- The bits outside of the mask tell nothing about a reserved value. -/
theorem and_mask_or_not (x m : BitVec 32) : x &&& m ||| ~~~m = x ||| ~~~m := by
  ext i hi
  simp only [BitVec.getElem_or, BitVec.getElem_and, BitVec.getElem_not]
  cases x[i] <;> cases m[i] <;> rfl

theorem le_or_right (x y : BitVec 32) : x ≤ x ||| y := by
  exact Nat.left_le_or

/-- A value that can be stored is read back, mapped if it is reserved. -/
theorem mapped_and_mask (hmax : v.maxcluster ≤ v.type.mask.toNat) {x : BitVec 32}
    (h : v.Storable x) : v.mapped (x &&& v.type.mask) = v.mapped x := by
  by_cases hfit : x ≤ v.type.mask
  · rw [and_mask_of_le _ hfit]
  · have hres : clustRsrvd ≤ x := by
      obtain h | h | h := h
      · exact absurd (h.trans hmax) hfit
      · exact absurd h hfit
      · exact h
    have hle : clustRsrvd ≤ x ||| ~~~v.type.mask := BitVec.le_trans hres (le_or_right x _)
    rw [Volume.mapped, Volume.mapped, and_mask_or_not, if_pos hle, if_pos hle]

/-! ## Chains -/

theorem entry_lt_values (tab : Mem) (cn : Nat) : v.entry tab cn < v.type.values := by
  unfold Volume.entry FatType.decode FatType.values
  cases v.type with
  | fat12 =>
    dsimp only
    split
    · exact Nat.mod_lt _ (by decide)
    · exact Nat.mod_lt _ (by decide)
  | fat16 => exact Nat.mod_lt _ (by decide)
  | fat32 => exact Nat.mod_lt _ (by decide)

theorem entry_le_mask (tab : Mem) (cn : Nat) : BitVec.ofNat 32 (v.entry tab cn) ≤ v.type.mask := by
  have hlt := entry_lt_values (v := v) tab cn
  rw [values_eq] at hlt
  rw [BitVec.le_def, BitVec.toNat_ofNat, Nat.mod_eq_of_lt (by omega)]
  exact Nat.le_of_lt_succ hlt

/-- Reserved values become the largest value of an entry here. -/
theorem follow_of_le {x : BitVec 32} (h : x ≤ v.type.mask) :
    follow v x = if clustRsrvd ≤ x ||| ~~~v.type.mask then v.type.mask else x := by
  have habsorb : x ||| v.type.mask = v.type.mask := by
    rw [← and_mask_of_le _ h]
    ext i hi
    simp only [BitVec.getElem_or, BitVec.getElem_and]
    cases x[i] <;> cases v.type.mask[i] <;> rfl
  unfold follow
  rw [and_mask_of_le _ h]
  dsimp only
  rw [habsorb]

/-- Two readings that agree on clusters find the same chains. -/
theorem Chain.imp {read read' : BitVec 32 → BitVec 32} {cluster cn : Nat}
    (h : ∀ x, x ≤ v.type.mask → v.InRange (read x).toNat → read' x = read x)
    (hchain : Chain v read tab cluster cn) : Chain v read' tab cluster cn := by
  obtain ⟨hpath, hin⟩ := hchain
  refine ⟨?_, hin⟩
  induction hpath using Relation.ReflTransGen.head_induction_on with
  | refl => exact .refl
  | @head a b hlink hrest ih =>
    have hb : v.InRange b := by
      by_contra hout
      exact chain_of_out hout ⟨hrest, hin⟩
    rw [← hlink.2] at hb
    exact .head ⟨hlink.1, by rw [h _ (entry_le_mask tab a) hb, hlink.2]⟩ ih

/-- The chains that fatentry finds are the ones that freeclusterchain
follows, unless the largest value of an entry is the number of a
cluster. -/
theorem chain_follow_iff (hmax : v.maxcluster < v.type.mask.toNat) {cluster cn : Nat} :
    Chain v (follow v) tab cluster cn ↔ Chain v v.mapped tab cluster cn := by
  constructor
  · refine Chain.imp fun x hx hin => ?_
    rw [follow_of_le hx] at hin ⊢
    split at hin
    · exact absurd hin.2 (Nat.not_le.mpr hmax)
    · rename_i hres
      rw [Volume.mapped, if_neg hres, if_neg hres]
  · refine Chain.imp fun x hx hin => ?_
    rw [Volume.mapped] at hin ⊢
    rw [follow_of_le hx]
    split at hin
    · rename_i hres
      have hlarge : clustRsrvd.toNat ≤ (x ||| ~~~v.type.mask).toNat := hres
      have hlt := v.maxcluster_lt
      have hle := hin.2
      have hnum : clustRsrvd.toNat = 0xfffffff6 := rfl
      omega
    · rename_i hres
      rw [if_neg hres, if_neg hres]

/-- What freeclusterchain does, by the chain that it follows. -/
theorem freeclusterchain_sets (io : Nat → Bool) (cluster : BitVec 32) (s : St) :
    ∃ cs : Set Nat,
      Sets v (v.table s.disk) (v.table (freeclusterchain v io cluster s).1.disk) cs 0
        ∧ (∀ cn ∈ cs, Chain v (follow v) (v.table s.disk) cluster.toNat cn)
        ∧ (((freeclusterchain v io cluster s).2 = .ok ()
            ∧ ∀ cn, Chain v (follow v) (v.table s.disk) cluster.toNat cn → cn ∈ cs)
          ∨ ((freeclusterchain v io cluster s).2 = .error .eio ∧ ∃ bn, io bn = false)) := by
  obtain ⟨cs, last, disk, res, hwalk, hrun, hstop⟩ := freeclusterchain_walked (v := v) io cluster s
  rw [hrun]
  refine ⟨{cn | cn ∈ cs}, ?_, hwalk.chain.1, ?_⟩
  · have hsets := @sets_free v (v.table s.disk) cs fun cn hcn => (hwalk.inRange cn hcn).2
    rwa [← hwalk.table_eq] at hsets
  · obtain ⟨rfl, hout⟩ | ⟨rfl, -, hio⟩ := hstop
    · exact .inl ⟨rfl, hwalk.chain.2 hout⟩
    · exact .inr ⟨rfl, _, hio⟩

/-! ## The table as a map -/

/-- What the operations on the table do. -/
structure TableOk (v : Volume) : Prop where
  /-- FAT_SET changes the entry of the cluster and nothing else. -/
  set : ∀ io get cn new s, v.InRange cn → io (fatblock v (v.fatofs cn)).bn = true →
    ∃ disk old, fatentry v io get true cn new s = ({ s with disk := disk }, .ok old)
      ∧ Sets v (v.table s.disk) (v.table disk) {cn} (new.toNat % v.type.values)
  /-- FAT_GET changes nothing, and returns the value last set. -/
  get : ∀ io cn new calls s, v.InRange cn → io (fatblock v (v.fatofs cn)).bn = true →
    v.Storable new → (∀ call ∈ calls, call.1 ≠ cn) →
    ∃ s', setAll v io ((cn, new) :: calls) s = s'
      ∧ fatentry v io true false cn 0 s' = (s', .ok (v.mapped new))
  /-- fatchain does what the calls of fatentry do. -/
  chain : ∀ io start count fill s, clustFirst ≤ start → start + count ≤ v.maxcluster + 1 →
    (fatchain v io start count fill s).2 = (singles v io fill count start s).2
      ∧ SameTable v (fatchain v io start count fill s).1 (singles v io fill count start s).1
  /-- freeclusterchain frees the entries of the chain, or a part of them if
  a block cannot be read. -/
  free : ∀ io cluster s, ∃ cs : Set Nat,
    Sets v (v.table s.disk) (v.table (freeclusterchain v io cluster s).1.disk) cs 0
      ∧ (∀ cn ∈ cs, Chain v v.mapped (v.table s.disk) cluster.toNat cn)
      ∧ (((freeclusterchain v io cluster s).2 = .ok ()
          ∧ ∀ cn, Chain v v.mapped (v.table s.disk) cluster.toNat cn → cn ∈ cs)
        ∨ ((freeclusterchain v io cluster s).2 = .error .eio ∧ ∃ bn, io bn = false))
  /-- No access is outside of a block. -/
  inside : ∀ io s, (∀ get set cn new, (fatentry v io get set cn new s).2 ≠ .error .outside)
    ∧ (∀ start count fill, clustFirst ≤ start → start + count ≤ v.maxcluster + 1 →
      (fatchain v io start count fill s).2 ≠ .error .outside)
    ∧ ∀ cluster, (freeclusterchain v io cluster s).2 ≠ .error .outside

theorem fatentry_get (get : Bool) (cn : Nat) (new : BitVec 32) :
    (fatentry v io get false cn new s).1 = s := by
  unfold fatentry
  split
  · rfl
  dsimp only
  split
  · rfl
  · split <;> rfl

theorem get_after_set (hmax : v.maxcluster ≤ v.type.mask.toNat) {cn : Nat} {new : BitVec 32}
    (calls : List (Nat × BitVec 32)) (hin : v.InRange cn)
    (hio : io (fatblock v (v.fatofs cn)).bn = true) (hnew : v.Storable new)
    (hne : ∀ call ∈ calls, call.1 ≠ cn) :
    ∃ s', setAll v io ((cn, new) :: calls) s = s'
      ∧ fatentry v io true false cn 0 s' = (s', .ok (v.mapped new)) := by
  refine ⟨_, rfl, ?_⟩
  obtain ⟨disk, hset, htab⟩ := fatentry_eq (s := s) hin.1 hin.2 hio false true new
  have hentry : v.entry (v.table (setAll v io ((cn, new) :: calls) s).disk) cn
      = new.toNat % v.type.values := by
    rw [setAll, hset, entry_setAll hin.2 calls hne, htab, if_pos rfl, entry_setEntry_self]
  generalize setAll v io ((cn, new) :: calls) s = s' at hentry
  obtain ⟨disk', hget, -⟩ := fatentry_eq (s := s') hin.1 hin.2 hio true false 0
  refine Prod.ext (fatentry_get true cn 0) ?_
  rw [hget, if_pos rfl, hentry, ofNat_mod_values, mapped_and_mask hmax hnew]

theorem fatentry_inside (get set : Bool) (cn : Nat) (new : BitVec 32) :
    (fatentry v io get set cn new s).2 ≠ .error .outside := by
  by_cases hout : cn < clustFirst ∨ v.maxcluster < cn
  · rw [fatentry_of_outside hout]
    exact fun h => nomatch h
  cases hio : io (fatblock v (v.fatofs cn)).bn with
  | false =>
    rw [fatentry_of_unreadable hout hio]
    exact fun h => nomatch h
  | true =>
    obtain ⟨disk, heq, -⟩ := fatentry_eq (s := s) (by omega) (by omega) hio get set new
    rw [heq]
    exact fun h => nomatch h

theorem singles_inside (fill : BitVec 32) (count start : Nat) :
    (singles v io fill count start s).2 ≠ .error .outside := by
  induction count generalizing start s with
  | zero => exact fun h => nomatch h
  | succ count ih =>
    rw [singles]
    have hcall := @fatentry_inside v io s false true start
      (if 0 < count then BitVec.ofNat 32 (start + 1) else fill)
    split
    · rename_i s' e he
      rw [he] at hcall
      exact fun h => hcall (congrArg Except.error (Except.error.inj h))
    · exact ih _

theorem freeclusterchain_inside (io : Nat → Bool) (cluster : BitVec 32) (s : St) :
    (freeclusterchain v io cluster s).2 ≠ .error .outside := by
  obtain ⟨cs, -, -, hres⟩ := freeclusterchain_sets (v := v) io cluster s
  obtain ⟨hok, -⟩ | ⟨heio, -⟩ := hres
  · rw [hok]
    exact fun h => nomatch h
  · rw [heio]
    exact fun h => nomatch h

/-- The operations do what they should on a volume in which no cluster has
the largest value of an entry as its number. -/
theorem tableOk_of_lt (hmax : v.maxcluster < v.type.mask.toNat) : TableOk v where
  set := by
    intro io get cn new s hin hio
    obtain ⟨disk, hrun, htab⟩ := fatentry_eq (s := s) hin.1 hin.2 hio get true new
    refine ⟨disk, _, hrun, ?_⟩
    rw [htab, if_pos rfl]
    exact sets_setEntry hin.2 new
  get := fun io cn new calls s hin hio hnew hne =>
    get_after_set (Nat.le_of_lt hmax) calls hin hio hnew hne
  chain := fun io start count fill s h2 hle => fatchain_eq fill h2 hle
  free := by
    intro io cluster s
    obtain ⟨cs, hsets, hchain, hres⟩ := freeclusterchain_sets (v := v) io cluster s
    refine ⟨cs, hsets, fun cn hcn => (chain_follow_iff hmax).mp (hchain cn hcn), ?_⟩
    exact hres.imp_left fun hok => ⟨hok.1, fun cn hcn => hok.2 cn ((chain_follow_iff hmax).mpr hcn)⟩
  inside := by
    intro io s
    refine ⟨fun get set cn new => fatentry_inside get set cn new, ?_,
      fun cluster => freeclusterchain_inside io cluster s⟩
    intro start count fill h2 hle
    rw [(fatchain_eq fill h2 hle).1]
    exact singles_inside fill count start

/-! ## Where the end of a chain is a cluster -/

/-- A table of ones: every cluster is the last of a chain. -/
def onesDisk : Mem := fun _ => 0xff

theorem getLe_ones (o n : Nat) : getLe onesDisk o n = 256 ^ n - 1 := by
  induction n generalizing o with
  | zero => rfl
  | succ n ih =>
    rw [getLe, ih, Nat.pow_succ]
    have hpos : 0 < 256 ^ n := Nat.pow_pos (by decide)
    show 255 + 256 * (256 ^ n - 1) = _
    omega

theorem entry_ones {cn : Nat} (h : cn ≤ v.maxcluster) :
    v.entry (v.table onesDisk) cn = v.type.mask.toNat := by
  have hin := fatofs_inside h
  have hget : ∀ n o, o + n ≤ v.fatSecs * devBsize →
      getLe (v.table onesDisk) o n = getLe onesDisk o n := by
    intro n
    induction n with
    | zero => exact fun o _ => rfl
    | succ n ih =>
      intro o ho
      rw [getLe, getLe, ih (o + 1) (by omega), Volume.table, if_pos (by omega)]
      rfl
  rw [Volume.entry, hget _ _ hin, getLe_ones]
  cases v.type with
  | fat12 => cases hodd : decide (cn % 2 = 1) <;> rfl
  | fat16 => rfl
  | fat32 => rfl

theorem two_lt_mask (t : FatType) : 2 < t.mask.toNat := by
  cases t <;> decide

theorem follow_mask_self : follow v v.type.mask = v.type.mask := by
  rw [follow_of_le (BitVec.le_refl _), ite_eq_left_iff]
  exact fun _ => rfl

theorem mapped_mask : v.mapped v.type.mask = 0xffffffff := by
  unfold Volume.mapped
  cases v.type <;> decide

section

variable (hmax : v.type.mask.toNat ≤ v.maxcluster)
include hmax

theorem two_inRange : v.InRange 2 :=
  ⟨le_rfl, (Nat.le_of_lt (two_lt_mask v.type)).trans hmax⟩

theorem mask_inRange : v.InRange v.type.mask.toNat :=
  ⟨Nat.le_of_lt (two_lt_mask v.type), hmax⟩

/-- freeclusterchain goes on to the cluster with the largest number of an
entry. -/
theorem chain_to_mask : Chain v (follow v) (v.table onesDisk) 2 v.type.mask.toNat := by
  refine ⟨.single ⟨two_inRange hmax, ?_⟩, mask_inRange hmax⟩
  rw [entry_ones (two_inRange hmax).2, BitVec.ofNat_toNat, BitVec.setWidth_eq, follow_mask_self]

/-- It is not in the chain. -/
theorem not_chain_to_mask : ¬ Chain v v.mapped (v.table onesDisk) 2 v.type.mask.toNat := by
  rintro ⟨hpath, hin⟩
  obtain heq | ⟨b, hlink, hrest⟩ := Relation.ReflTransGen.cases_head hpath
  · exact absurd heq (Nat.ne_of_lt (two_lt_mask v.type))
  · have hb := hlink.2
    rw [entry_ones (two_inRange hmax).2, BitVec.ofNat_toNat, BitVec.setWidth_eq, mapped_mask] at hb
    have hlt := v.maxcluster_lt
    have hnum : (0xffffffff : BitVec 32).toNat = 0xffffffff := rfl
    have hout : ¬ v.InRange b := fun hr => absurd hr.2 (by omega)
    exact chain_of_out hout ⟨hrest, hin⟩

/-- A cluster is freed that is not in the chain. -/
theorem frees_mask (s : St) (h : s.disk = onesDisk) :
    v.entry (v.table (freeclusterchain v (fun _ => true) 2 s).1.disk) v.type.mask.toNat = 0 := by
  obtain ⟨cs, hsets, -, hres⟩ := freeclusterchain_sets (v := v) (fun _ => true) 2 s
  rw [h] at hres
  obtain ⟨-, hall⟩ | ⟨-, bn, hio⟩ := hres
  · exact hsets.inside _ (hall _ (chain_to_mask hmax))
  · exact absurd hio (by decide)

theorem not_tableOk_of_le : ¬ TableOk v := by
  intro hok
  obtain ⟨cs, hsets, hchain, -⟩ := hok.free (fun _ => true) 2 ⟨onesDisk, fun _ => 0, 0, []⟩
  have hnot : v.type.mask.toNat ∉ cs := fun hin => not_chain_to_mask hmax (hchain _ hin)
  have hkept := hsets.others _ hmax hnot
  rw [frees_mask hmax _ rfl, entry_ones hmax] at hkept
  exact absurd hkept (Nat.ne_of_lt (Nat.lt_trans (by decide) (two_lt_mask v.type)))

end

/-- The operations on the table do what they should exactly on the volumes
in which the largest value of an entry is not the number of a cluster. -/
theorem table_ok_iff (v : Volume) : TableOk v ↔ v.maxcluster < v.type.mask.toNat := by
  refine ⟨fun hok => ?_, tableOk_of_lt⟩
  by_contra hmax
  exact not_tableOk_of_le (Nat.le_of_not_lt hmax) hok

/-- A volume with 65534 clusters. -/
def fullVolume : Volume where
  type := .fat16
  blkPerSec := 1
  fatblk := 1
  fatSecs := 256
  fats := 2
  curfat := 0
  mirror := true
  maxcluster := 65535
  blk_pos := by decide
  fits := by decide
  few := by decide
  current := by decide
  reach := by decide

/-- A file of one cluster is freed, and with it the last cluster of the
volume, which is in use by another file. -/
theorem frees_another_file :
    Chain fullVolume fullVolume.mapped (fullVolume.table onesDisk) 2 2
      ∧ ¬ Chain fullVolume fullVolume.mapped (fullVolume.table onesDisk) 2 65535
      ∧ fullVolume.entry (fullVolume.table onesDisk) 65535 ≠ 0
      ∧ fullVolume.entry (fullVolume.table (freeclusterchain fullVolume (fun _ => true) 2
        ⟨onesDisk, fun _ => 0, 0, []⟩).1.disk) 65535 = 0
      ∧ ¬ TableOk fullVolume := by
  have hmax : fullVolume.type.mask.toNat ≤ fullVolume.maxcluster := le_refl 65535
  refine ⟨⟨.refl, two_inRange hmax⟩, not_chain_to_mask hmax, ?_, frees_mask hmax _ rfl,
    not_tableOk_of_le hmax⟩
  decide

end Obsd.Fat
