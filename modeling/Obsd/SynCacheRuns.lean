import Mathlib
import Obsd.SynCache

/-!
# The SYN cache keeps its books

`Inv` is what every call keeps: an entry is in the bucket its hash
selects, no two have the same addresses, `sch_length` and
`syn_cache_count` are what they say, and neither limit is exceeded. The
counts are what makes the search for a victim end. `sch_length` has 16
bits and the limits are an `int`, so all this takes a limit of at most
65535 (`syn_cache_runs`).
-/

namespace Obsd.Syn

variable {cfg : Config} {s : State}

def State.bucket (s : State) (i : Nat) : List Nat := (s.tcpSynCache i).schBucket

/-- Both are for the same connection. -/
def SameKey (cfg : Config) (a b : SynCache) : Prop :=
  a.scSrc = b.scSrc ∧ a.scDst = b.scDst ∧ cfg.rtableL2 a.scRtableid = cfg.rtableL2 b.scRtableid

/-- Entry `p` is where its hash puts it. -/
structure Placed (cfg : Config) (s : State) (i p : Nat) : Prop where
  allocated : p < s.next
  alive : (s.sc p).scfDead = false
  bucketidx : (s.sc p).scBucketidx = i
  hash : (s.sc p).scHash = synHashall s.synHash1 s.synHash2 (s.sc p).scSrc (s.sc p).scDst
  index : i = (s.sc p).scHash.toNat % cfg.tcpSynCacheSize

/-- The invariant. -/
structure Inv (cfg : Config) (s : State) : Prop where
  placed : ∀ i < cfg.tcpSynCacheSize, ∀ p ∈ s.bucket i, Placed cfg s i p
  nodup : ∀ i < cfg.tcpSynCacheSize, (s.bucket i).Nodup
  keys : ∀ i < cfg.tcpSynCacheSize, ∀ p ∈ s.bucket i, ∀ q ∈ s.bucket i,
    SameKey cfg (s.sc p) (s.sc q) → p = q
  live : ∀ p < s.next, (s.sc p).scfDead = false →
    (s.sc p).scBucketidx < cfg.tcpSynCacheSize ∧ p ∈ s.bucket (s.sc p).scBucketidx
  socks : ∀ tp, ∀ p ∈ s.tSc tp, p < s.next ∧ (s.sc p).scfDead = false
  socks_nodup : ∀ tp, (s.tSc tp).Nodup
  length : ∀ i < cfg.tcpSynCacheSize, (s.tcpSynCache i).schLength.toNat = (s.bucket i).length
  length_le : ∀ i < cfg.tcpSynCacheSize, (s.bucket i).length ≤ cfg.tcpSynBucketLimit
  count : s.synCacheCount = ∑ i ∈ Finset.range cfg.tcpSynCacheSize, (s.bucket i).length
  count_le : s.synCacheCount ≤ cfg.tcpSynCacheLimit

theorem inv_init (cfg : Config) : Inv cfg {} where
  placed := by simp [State.bucket]
  nodup := by simp [State.bucket]
  keys := by simp [State.bucket]
  live := by simp
  socks := by simp
  socks_nodup := by simp
  length := by simp [State.bucket]
  length_le := by simp [State.bucket]
  count := by simp [State.bucket]
  count_le := Nat.zero_le _

theorem Inv.length_le_count (hinv : Inv cfg s) {i : Nat} (hi : i < cfg.tcpSynCacheSize) :
    (s.bucket i).length ≤ s.synCacheCount := by
  rw [hinv.count]
  exact Finset.single_le_sum (f := fun i => (s.bucket i).length) (fun _ _ => Nat.zero_le _)
    (Finset.mem_range.mpr hi)

/-! ## Removal -/

section Rm
variable {p : Nat}

theorem bucket_rm (i : Nat) : (synCacheRm s p).bucket i =
    if i = (s.sc p).scBucketidx then (s.bucket i).erase p else s.bucket i := by
  unfold synCacheRm State.bucket State.setHead State.setSc
  split_ifs with hi
  · subst hi
    simp
  · simp [hi]

theorem sc_rm (q : Nat) : (synCacheRm s p).sc q =
    if q = p then { s.sc p with scfDead := true, scTp := none } else s.sc q := rfl

theorem schLength_rm (i : Nat) : ((synCacheRm s p).tcpSynCache i).schLength =
    if i = (s.sc p).scBucketidx then (s.tcpSynCache i).schLength - 1#16
    else (s.tcpSynCache i).schLength := by
  unfold synCacheRm State.setHead State.setSc
  split_ifs with hi
  · subst hi
    simp
  · simp [hi]

theorem mem_of_mem_bucket_rm {i q : Nat} (hq : q ∈ (synCacheRm s p).bucket i) : q ∈ s.bucket i := by
  rw [bucket_rm] at hq
  split_ifs at hq
  · exact List.mem_of_mem_erase hq
  · exact hq

/-- One entry less in its bucket. -/
theorem length_bucket_rm (hp : p ∈ s.bucket (s.sc p).scBucketidx) (i : Nat) :
    ((synCacheRm s p).bucket i).length
      = (s.bucket i).length - if i = (s.sc p).scBucketidx then 1 else 0 := by
  rw [bucket_rm]
  split_ifs with hi
  · subst hi
    exact List.length_erase_of_mem hp
  · rfl

/-- A removed entry is in no bucket any more. -/
theorem ne_of_mem_bucket_rm (hinv : Inv cfg s) {i q : Nat} (hi : i < cfg.tcpSynCacheSize)
    (hq : q ∈ (synCacheRm s p).bucket i) : q ≠ p := by
  rintro rfl
  have hidx := (hinv.placed i hi q (mem_of_mem_bucket_rm hq)).bucketidx
  rw [bucket_rm, if_pos hidx.symm] at hq
  exact (hinv.nodup i hi).not_mem_erase hq

theorem count_rm (hinv : Inv cfg s) (hp : p < s.next) (halive : (s.sc p).scfDead = false) :
    (synCacheRm s p).synCacheCount + 1 = s.synCacheCount
      ∧ (synCacheRm s p).synCacheCount
        = ∑ i ∈ Finset.range cfg.tcpSynCacheSize, ((synCacheRm s p).bucket i).length := by
  obtain ⟨hidx, hmem⟩ := hinv.live p hp halive
  have hpos : 1 ≤ (s.bucket (s.sc p).scBucketidx).length := List.length_pos_of_mem hmem
  have hle := hinv.length_le_count hidx
  have hcount : (synCacheRm s p).synCacheCount = s.synCacheCount - 1 := rfl
  refine ⟨by omega, ?_⟩
  rw [hcount, hinv.count]
  simp only [length_bucket_rm hmem]
  have hin : (s.sc p).scBucketidx ∈ Finset.range cfg.tcpSynCacheSize := Finset.mem_range.mpr hidx
  rw [← Finset.add_sum_erase _ _ hin, ← Finset.add_sum_erase _ _ hin, if_pos rfl]
  have hrest : ∀ i ∈ (Finset.range cfg.tcpSynCacheSize).erase (s.sc p).scBucketidx,
      ((s.bucket i).length - if i = (s.sc p).scBucketidx then 1 else 0) = (s.bucket i).length := by
    intro i hi
    rw [if_neg (Finset.ne_of_mem_erase hi), Nat.sub_zero]
  rw [Finset.sum_congr rfl hrest]
  omega

theorem Placed.rm {i q : Nat} (h : Placed cfg s i q) (hq : q ≠ p) : Placed cfg (synCacheRm s p) i q := by
  have hsc : (synCacheRm s p).sc q = s.sc q := by rw [sc_rm, if_neg hq]
  refine ⟨h.allocated, ?_, ?_, ?_, ?_⟩ <;> rw [hsc]
  · exact h.alive
  · exact h.bucketidx
  · exact h.hash
  · exact h.index

theorem inv_rm (hinv : Inv cfg s) (hp : p < s.next) (halive : (s.sc p).scfDead = false) :
    Inv cfg (synCacheRm s p) := by
  obtain ⟨hidx, hmem⟩ := hinv.live p hp halive
  have hpos : 1 ≤ (s.bucket (s.sc p).scBucketidx).length := List.length_pos_of_mem hmem
  obtain ⟨hcount, hsum⟩ := count_rm hinv hp halive
  have hother : ∀ q, q ≠ p → (synCacheRm s p).sc q = s.sc q := fun q hq => by rw [sc_rm, if_neg hq]
  constructor
  case placed =>
    intro i hi q hq
    exact (hinv.placed i hi q (mem_of_mem_bucket_rm hq)).rm (ne_of_mem_bucket_rm hinv hi hq)
  case nodup =>
    intro i hi
    rw [bucket_rm]
    split_ifs
    · exact (hinv.nodup i hi).erase p
    · exact hinv.nodup i hi
  case keys =>
    intro i hi q hq r hr
    rw [hother q (ne_of_mem_bucket_rm hinv hi hq), hother r (ne_of_mem_bucket_rm hinv hi hr)]
    exact hinv.keys i hi q (mem_of_mem_bucket_rm hq) r (mem_of_mem_bucket_rm hr)
  case live =>
    intro q hq hdead
    have hne : q ≠ p := by
      rintro rfl
      rw [sc_rm, if_pos rfl] at hdead
      cases hdead
    rw [hother q hne] at hdead ⊢
    obtain ⟨hqidx, hqmem⟩ := hinv.live q hq hdead
    refine ⟨hqidx, ?_⟩
    rw [bucket_rm]
    split_ifs
    · exact (List.mem_erase_of_ne hne).mpr hqmem
    · exact hqmem
  case socks =>
    intro tp q hq
    have hne : q ≠ p := by
      rintro rfl
      exact (hinv.socks_nodup tp).not_mem_erase hq
    rw [hother q hne]
    exact hinv.socks tp q (List.mem_of_mem_erase hq)
  case socks_nodup =>
    intro tp
    exact (hinv.socks_nodup tp).erase p
  case length =>
    intro i hi
    rw [length_bucket_rm hmem, schLength_rm, ← hinv.length i hi]
    split_ifs with hsame
    · subst hsame
      have hlen := hinv.length _ hi
      rw [BitVec.toNat_sub_of_le]
      · rfl
      · rw [BitVec.le_def]
        show 1 ≤ _
        omega
    · rfl
  case length_le =>
    intro i hi
    rw [length_bucket_rm hmem]
    exact Nat.le_trans (Nat.sub_le _ _) (hinv.length_le i hi)
  case count => exact hsum
  case count_le =>
    have hle := hinv.count_le
    omega

end Rm

/-! ## Changes to one entry -/

/-- The timer and the flag of an error may change; the cache does not depend on them. -/
theorem inv_setSc (hinv : Inv cfg s) {p : Nat} {sc : SynCache} (hhash : sc.scHash = (s.sc p).scHash)
    (hidx : sc.scBucketidx = (s.sc p).scBucketidx) (hsrc : sc.scSrc = (s.sc p).scSrc)
    (hdst : sc.scDst = (s.sc p).scDst) (hrt : sc.scRtableid = (s.sc p).scRtableid)
    (hdead : sc.scfDead = (s.sc p).scfDead) : Inv cfg (s.setSc p sc) := by
  have hsc : ∀ q, ((s.setSc p sc).sc q).scHash = (s.sc q).scHash
      ∧ ((s.setSc p sc).sc q).scBucketidx = (s.sc q).scBucketidx
      ∧ ((s.setSc p sc).sc q).scSrc = (s.sc q).scSrc ∧ ((s.setSc p sc).sc q).scDst = (s.sc q).scDst
      ∧ ((s.setSc p sc).sc q).scRtableid = (s.sc q).scRtableid
      ∧ ((s.setSc p sc).sc q).scfDead = (s.sc q).scfDead := by
    intro q
    simp only [State.setSc]
    split_ifs with hq
    · subst hq
      exact ⟨hhash, hidx, hsrc, hdst, hrt, hdead⟩
    · exact ⟨rfl, rfl, rfl, rfl, rfl, rfl⟩
  constructor
  case placed =>
    intro i hi q hq
    obtain ⟨hhash', hidx', hsrc', hdst', hrt', hdead'⟩ := hsc q
    obtain ⟨halloc, halive, hbucket, hh, hindex⟩ := hinv.placed i hi q hq
    refine ⟨halloc, ?_, ?_, ?_, ?_⟩
    · rw [hdead', halive]
    · rw [hidx', hbucket]
    · rw [hhash', hsrc', hdst', hh]
      rfl
    · rw [hhash', ← hindex]
  case keys =>
    rintro i hi q hq r hr ⟨hs, hd, hl⟩
    obtain ⟨-, -, hsrc1, hdst1, hrt1, -⟩ := hsc q
    obtain ⟨-, -, hsrc2, hdst2, hrt2, -⟩ := hsc r
    refine hinv.keys i hi q hq r hr ⟨?_, ?_, ?_⟩
    · rw [← hsrc1, ← hsrc2, hs]
    · rw [← hdst1, ← hdst2, hd]
    · rw [← hrt1, ← hrt2, hl]
  case live =>
    intro q hq halive
    obtain ⟨-, hidx', -, -, -, hdead'⟩ := hsc q
    rw [hdead'] at halive
    rw [hidx']
    exact hinv.live q hq halive
  case socks =>
    intro tp q hq
    obtain ⟨-, -, -, -, -, hdead'⟩ := hsc q
    rw [hdead']
    exact hinv.socks tp q hq
  case nodup => exact hinv.nodup
  case socks_nodup => exact hinv.socks_nodup
  case length => exact hinv.length
  case length_le => exact hinv.length_le
  case count => exact hinv.count
  case count_le => exact hinv.count_le

/-! ## The search for a victim -/

/-- Bucket `j` comes before `scp` on the way from `scp2` on. -/
def Ahead (scp scp2 j : Nat) : Prop :=
  (scp2 ≤ j ∧ (scp < scp2 ∨ j < scp)) ∨ (j < scp ∧ scp < scp2)

/-- How many buckets the search looks at until it comes to `j`. -/
def distance (size scp2 j : Nat) : Nat := if scp2 ≤ j then j - scp2 else size - scp2 + j

/-- By induction on the distance to a bucket that is not empty. -/
theorem victim_some {scp j : Nat} (hj : j < cfg.tcpSynCacheSize) (hne : s.bucket j ≠ [])
    (fuel : Nat) : ∀ scp2 ≤ cfg.tcpSynCacheSize, Ahead scp scp2 j →
      distance cfg.tcpSynCacheSize scp2 j < fuel →
      ∃ i < cfg.tcpSynCacheSize, victim cfg s scp fuel scp2 = some i ∧ s.bucket i ≠ [] := by
  induction fuel with
  | zero =>
    intro scp2 _ _ hfuel
    omega
  | succ fuel ih =>
    intro scp2 hle hahead hfuel
    have hscp : scp2 ≠ scp := by
      rintro rfl
      unfold Ahead at hahead
      omega
    rw [victim, if_neg hscp]
    simp only
    -- where the round begins anew
    obtain ⟨i, hi, hilt, hnext⟩ : ∃ i, (if scp2 ≥ cfg.tcpSynCacheSize then 0 else scp2) = i
        ∧ i < cfg.tcpSynCacheSize
        ∧ (i ≠ j → Ahead scp (i + 1) j ∧ distance cfg.tcpSynCacheSize (i + 1) j < fuel) := by
      unfold Ahead distance at *
      split_ifs with hend
      · refine ⟨0, rfl, by omega, fun hij => ⟨by omega, ?_⟩⟩
        split_ifs at * <;> omega
      · refine ⟨scp2, rfl, by omega, fun hij => ⟨by omega, ?_⟩⟩
        split_ifs at * <;> omega
    rw [hi]
    rcases eq_or_ne (s.tcpSynCache i).schBucket [] with hempty | hfound
    · rw [if_neg (by simp [hempty])]
      have hij : i ≠ j := by
        rintro rfl
        exact hne hempty
      obtain ⟨hahead', hfuel'⟩ := hnext hij
      exact ih (i + 1) hilt hahead' hfuel'
    · rw [if_pos hfound]
      exact ⟨i, hilt, rfl, hfound⟩

/-- **The search ends.** A cache with entries, none of them in bucket `scp`, has a victim. -/
theorem victim_of_count (hinv : Inv cfg s) {scp : Nat} (hscp : scp < cfg.tcpSynCacheSize)
    (hempty : s.bucket scp = []) (hcount : s.synCacheCount ≠ 0) :
    ∃ i < cfg.tcpSynCacheSize, victim cfg s scp cfg.tcpSynCacheSize (scp + 1) = some i ∧ s.bucket i ≠ [] := by
  rw [hinv.count] at hcount
  obtain ⟨j, hj, hlen⟩ := Finset.exists_ne_zero_of_sum_ne_zero hcount
  have hj' : j < cfg.tcpSynCacheSize := Finset.mem_range.mp hj
  have hne : s.bucket j ≠ [] := fun h => hlen (by rw [h]; rfl)
  have hjs : j ≠ scp := by
    rintro rfl
    exact hne hempty
  refine victim_some hj' hne _ (scp + 1) hscp ?_ ?_
  · unfold Ahead
    omega
  · unfold distance
    split_ifs <;> omega

/-! ## Insertion -/

/-- Nothing that was not there before, and no entry changed that still is. -/
structure Shrinks (s s' : State) : Prop where
  next : s'.next = s.next
  synHash1 : s'.synHash1 = s.synHash1
  synHash2 : s'.synHash2 = s.synHash2
  bucket : ∀ i, ∀ p ∈ s'.bucket i, p ∈ s.bucket i
  sc : ∀ p, (s'.sc p).scSrc = (s.sc p).scSrc ∧ (s'.sc p).scDst = (s.sc p).scDst
    ∧ (s'.sc p).scRtableid = (s.sc p).scRtableid

theorem Shrinks.refl (s : State) : Shrinks s s :=
  ⟨rfl, rfl, rfl, fun _ _ h => h, fun _ => ⟨rfl, rfl, rfl⟩⟩

theorem shrinks_rm (p : Nat) : Shrinks s (synCacheRm s p) := by
  refine ⟨rfl, rfl, rfl, fun _ _ => mem_of_mem_bucket_rm, fun q => ?_⟩
  rw [sc_rm]
  split_ifs with hq
  · subst hq
    exact ⟨rfl, rfl, rfl⟩
  · exact ⟨rfl, rfl, rfl⟩

theorem makeRoom_spec (hinv : Inv cfg s) (hlimit : 1 ≤ cfg.tcpSynCacheLimit)
    (hbucket : 1 ≤ cfg.tcpSynBucketLimit) {scp : Nat} (hscp : scp < cfg.tcpSynCacheSize) :
    ∃ s', makeRoom cfg s scp = some s' ∧ Inv cfg s' ∧ Shrinks s s'
      ∧ (s'.bucket scp).length < cfg.tcpSynBucketLimit ∧ s'.synCacheCount < cfg.tcpSynCacheLimit := by
  have hlen := hinv.length scp hscp
  have hle := hinv.length_le scp hscp
  have hcle := hinv.count_le
  -- what removing the first entry of a bucket comes to
  have hfirst : ∀ scp2 < cfg.tcpSynCacheSize, ∀ sc2 rest, (s.tcpSynCache scp2).schBucket = sc2 :: rest →
      Inv cfg (synCacheRm s sc2) ∧ (synCacheRm s sc2).synCacheCount + 1 = s.synCacheCount
        ∧ ((synCacheRm s sc2).bucket scp).length = (s.bucket scp).length - if scp = scp2 then 1 else 0 := by
    intro scp2 hscp2 sc2 rest hb
    have hmem : sc2 ∈ s.bucket scp2 := by rw [State.bucket, hb]; exact List.mem_cons_self
    have hpl := hinv.placed scp2 hscp2 sc2 hmem
    have hidx : sc2 ∈ s.bucket (s.sc sc2).scBucketidx := by rw [hpl.bucketidx]; exact hmem
    refine ⟨inv_rm hinv hpl.allocated hpl.alive, (count_rm hinv hpl.allocated hpl.alive).1, ?_⟩
    rw [length_bucket_rm hidx, hpl.bucketidx]
  unfold makeRoom
  rcases Nat.lt_or_ge (s.tcpSynCache scp).schLength.toNat cfg.tcpSynBucketLimit with hlt | hfull
  · rw [if_neg (Nat.not_le_of_lt hlt)]
    rcases Nat.lt_or_ge s.synCacheCount cfg.tcpSynCacheLimit with hclt | hover
    · rw [if_neg (Nat.not_le_of_lt hclt)]
      exact ⟨s, rfl, hinv, .refl s, by omega, hclt⟩
    · rw [if_pos hover]
      -- the oldest of another bucket, or of this one if it has any
      obtain ⟨scp2, hscp2, heq, hne⟩ : ∃ scp2 < cfg.tcpSynCacheSize,
          (if (s.tcpSynCache scp).schBucket = [] then victim cfg s scp cfg.tcpSynCacheSize (scp + 1)
            else some scp) = some scp2 ∧ s.bucket scp2 ≠ [] := by
        split_ifs with hempty
        · exact victim_of_count hinv hscp hempty (by omega)
        · exact ⟨scp, hscp, rfl, hempty⟩
      simp only [heq]
      cases hb : (s.tcpSynCache scp2).schBucket with
      | nil => exact absurd hb hne
      | cons sc2 rest =>
        obtain ⟨hrm, hcount, hrest⟩ := hfirst scp2 hscp2 sc2 rest hb
        exact ⟨_, rfl, hrm, shrinks_rm sc2, by omega, by omega⟩
  · rw [if_pos hfull]
    -- the oldest of the bucket
    cases hb : (s.tcpSynCache scp).schBucket with
    | nil =>
      have : (s.bucket scp).length = 0 := by rw [State.bucket, hb]; rfl
      omega
    | cons sc2 rest =>
      obtain ⟨hrm, hcount, hrest⟩ := hfirst scp hscp sc2 rest hb
      rw [if_pos rfl] at hrest
      exact ⟨_, rfl, hrm, shrinks_rm sc2, by omega, by omega⟩

/-- New secrets, while there is no entry they do not fit. -/
theorem inv_redraw (hinv : Inv cfg s) (hcount : s.synCacheCount = 0) (rnd1 rnd2 : BitVec 32) :
    Inv cfg { s with synHash1 := rnd1, synHash2 := rnd2 } := by
  have hnone : ∀ i < cfg.tcpSynCacheSize, ∀ p, p ∉ s.bucket i := by
    intro i hi p hp
    have hle := hinv.length_le_count hi
    have hpos := List.length_pos_of_mem hp
    omega
  exact { hinv with placed := fun i hi p hp => absurd hp (hnone i hi p) }

/-- No live entry is for the connection of `sc`. -/
def NoKey (cfg : Config) (s : State) (sc : SynCache) : Prop :=
  ∀ i < cfg.tcpSynCacheSize, ∀ p ∈ s.bucket i, ¬SameKey cfg (s.sc p) sc

theorem NoKey.shrinks {s' : State} {sc : SynCache} (h : NoKey cfg s sc) (hs : Shrinks s s') :
    NoKey cfg s' sc := by
  rintro i hi p hp ⟨hsrc, hdst, hrt⟩
  obtain ⟨hsrc', hdst', hrt'⟩ := hs.sc p
  refine h i hi p (hs.bucket i p hp) ⟨?_, ?_, ?_⟩
  · rw [← hsrc', hsrc]
  · rw [← hdst', hdst]
  · rw [← hrt', hrt]

section Link
variable {sc : SynCache} {tp : Nat}

theorem bucket_link (i : Nat) : (linkEntry s sc tp).bucket i =
    if i = sc.scBucketidx then s.bucket i ++ [s.next] else s.bucket i := by
  unfold linkEntry State.bucket State.setHead State.setSc
  split_ifs with hi
  · subst hi
    simp
  · simp [hi]

theorem sc_link (q : Nat) : (linkEntry s sc tp).sc q = if q = s.next then sc else s.sc q := rfl

theorem schLength_link (i : Nat) : ((linkEntry s sc tp).tcpSynCache i).schLength =
    if i = sc.scBucketidx then (s.tcpSynCache i).schLength + 1#16 else (s.tcpSynCache i).schLength := by
  unfold linkEntry State.setHead State.setSc
  split_ifs with hi
  · subst hi
    simp
  · simp [hi]

theorem mem_bucket_link {i q : Nat} (hq : q ∈ (linkEntry s sc tp).bucket i) :
    q ∈ s.bucket i ∨ i = sc.scBucketidx ∧ q = s.next := by
  rw [bucket_link] at hq
  split_ifs at hq with hi
  · rw [List.mem_append, List.mem_singleton] at hq
    exact hq.imp id fun h => ⟨hi, h⟩
  · exact .inl hq

theorem length_bucket_link (i : Nat) : ((linkEntry s sc tp).bucket i).length =
    (s.bucket i).length + if i = sc.scBucketidx then 1 else 0 := by
  rw [bucket_link]
  split_ifs with hi
  · rw [List.length_append]
    rfl
  · rfl

theorem inv_link (hinv : Inv cfg s) (hidx : sc.scBucketidx < cfg.tcpSynCacheSize)
    (hhash : sc.scHash = synHashall s.synHash1 s.synHash2 sc.scSrc sc.scDst)
    (hindex : sc.scBucketidx = sc.scHash.toNat % cfg.tcpSynCacheSize) (halive : sc.scfDead = false)
    (hkey : NoKey cfg s sc) (hroom : (s.bucket sc.scBucketidx).length < cfg.tcpSynBucketLimit)
    (hcroom : s.synCacheCount < cfg.tcpSynCacheLimit)
    (hshort : cfg.tcpSynBucketLimit ≤ 65535 ∨ cfg.tcpSynCacheLimit ≤ 65535) :
    Inv cfg (linkEntry s sc tp) := by
  have hold : ∀ {i q}, i < cfg.tcpSynCacheSize → q ∈ s.bucket i → q ≠ s.next := by
    intro i q hi hq
    have := (hinv.placed i hi q hq).allocated
    omega
  have hsc : ∀ {q}, q ≠ s.next → (linkEntry s sc tp).sc q = s.sc q := fun hq => by
    rw [sc_link, if_neg hq]
  have hnew : (linkEntry s sc tp).sc s.next = sc := by rw [sc_link, if_pos rfl]
  constructor
  case placed =>
    intro i hi q hq
    rcases mem_bucket_link hq with hq | ⟨rfl, rfl⟩
    · obtain ⟨halloc, halive', hbucket, hh, hi'⟩ := hinv.placed i hi q hq
      have hq' := hsc (hold hi hq)
      refine ⟨Nat.lt_succ_of_lt halloc, ?_, ?_, ?_, ?_⟩ <;> rw [hq'] <;> assumption
    · refine ⟨Nat.lt_succ_self _, ?_, ?_, ?_, ?_⟩ <;> rw [hnew] <;> assumption
  case nodup =>
    intro i hi
    rw [bucket_link]
    split_ifs
    · refine (hinv.nodup i hi).append (List.nodup_singleton _) ?_
      intro q hq hqn
      exact hold hi hq (List.mem_singleton.mp hqn)
    · exact hinv.nodup i hi
  case keys =>
    intro i hi q hq r hr hsame
    rcases mem_bucket_link hq with hq | ⟨rfl, rfl⟩ <;> rcases mem_bucket_link hr with hr | ⟨hri, rfl⟩
    · rw [hsc (hold hi hq), hsc (hold hi hr)] at hsame
      exact hinv.keys i hi q hq r hr hsame
    · rw [hsc (hold hi hq), hnew] at hsame
      exact absurd hsame (hkey i hi q hq)
    · rw [hnew, hsc (hold hi hr)] at hsame
      exact absurd ⟨hsame.1.symm, hsame.2.1.symm, hsame.2.2.symm⟩ (hkey _ hi r hr)
    · rfl
  case live =>
    intro q hq hdead
    rcases eq_or_ne q s.next with rfl | hne
    · rw [hnew]
      refine ⟨hidx, ?_⟩
      rw [bucket_link, if_pos rfl]
      exact List.mem_append_right _ (List.mem_singleton.mpr rfl)
    · rw [hsc hne] at hdead ⊢
      have hlt : q < s.next := by
        have : q < s.next + 1 := hq
        omega
      obtain ⟨hqidx, hqmem⟩ := hinv.live q hlt hdead
      refine ⟨hqidx, ?_⟩
      rw [bucket_link]
      split_ifs
      · exact List.mem_append_left _ hqmem
      · exact hqmem
  case socks =>
    intro t q hq
    have hcases : q = s.next ∨ q ∈ s.tSc t := by
      simp only [linkEntry, State.setHead, State.setSc] at hq
      split_ifs at hq
      · exact List.mem_cons.mp hq
      · exact .inr hq
    rcases hcases with rfl | hq
    · exact ⟨Nat.lt_succ_self _, by rw [hnew]; exact halive⟩
    · obtain ⟨hlt, hdead⟩ := hinv.socks t q hq
      exact ⟨Nat.lt_succ_of_lt hlt, by rw [hsc (Nat.ne_of_lt hlt)]; exact hdead⟩
  case socks_nodup =>
    intro t
    simp only [linkEntry, State.setHead, State.setSc]
    split_ifs
    · refine List.nodup_cons.mpr ⟨fun hmem => ?_, hinv.socks_nodup t⟩
      exact Nat.lt_irrefl _ (hinv.socks t _ hmem).1
    · exact hinv.socks_nodup t
  case length =>
    intro i hi
    rw [length_bucket_link, schLength_link, ← hinv.length i hi]
    split_ifs with hsame
    · subst hsame
      have hlen := hinv.length _ hi
      have hle := hinv.length_le_count hi
      show ((s.tcpSynCache sc.scBucketidx).schLength.toNat + 1) % 65536 = _
      omega
    · rfl
  case length_le =>
    intro i hi
    rw [length_bucket_link]
    split_ifs with hsame
    · subst hsame
      omega
    · exact hinv.length_le i hi
  case count =>
    have hcount : (linkEntry s sc tp).synCacheCount = s.synCacheCount + 1 := rfl
    simp only [hcount, length_bucket_link, Finset.sum_add_distrib, ← hinv.count]
    rw [Finset.sum_ite_eq' (Finset.range cfg.tcpSynCacheSize), if_pos (Finset.mem_range.mpr hidx)]
  case count_le => exact hcroom

end Link

theorem synCacheInsert_inv (hinv : Inv cfg s) (hsize : 1 ≤ cfg.tcpSynCacheSize)
    (hlimit : 1 ≤ cfg.tcpSynCacheLimit) (hbucket : 1 ≤ cfg.tcpSynBucketLimit)
    (hshort : cfg.tcpSynBucketLimit ≤ 65535 ∨ cfg.tcpSynCacheLimit ≤ 65535) {sc : SynCache}
    (halive : sc.scfDead = false) (hkey : NoKey cfg s sc) (tp : Nat) (rnd1 rnd2 : BitVec 32) :
    ∃ s', synCacheInsert cfg s sc tp rnd1 rnd2 = some s' ∧ Inv cfg s' := by
  unfold synCacheInsert
  -- the secrets, drawn anew or not
  obtain ⟨s1, hs1, hinv1, hkey1⟩ : ∃ s1,
      (if s.synCacheCount = 0 then { s with synHash1 := rnd1, synHash2 := rnd2 } else s) = s1
        ∧ Inv cfg s1 ∧ NoKey cfg s1 sc := by
    split_ifs with hcount
    · exact ⟨_, rfl, inv_redraw hinv hcount rnd1 rnd2, hkey⟩
    · exact ⟨s, rfl, hinv, hkey⟩
  simp only [hs1]
  obtain ⟨s2, hs2, hinv2, hshrink, hroom, hcroom⟩ :=
    makeRoom_spec hinv1 hlimit hbucket (Nat.mod_lt _ hsize)
  refine ⟨_, by rw [hs2]; rfl, ?_⟩
  refine inv_link hinv2 (Nat.mod_lt _ hsize) ?_ rfl halive (hkey1.shrinks hshrink) hroom hcroom hshort
  rw [hshrink.synHash1, hshrink.synHash2]
  rfl

/-! ## Lookup -/

/-- **Every live entry is found** by its addresses. -/
theorem synCacheLookup_self (hinv : Inv cfg s) {i p : Nat} (hi : i < cfg.tcpSynCacheSize)
    (hp : p ∈ s.bucket i) :
    synCacheLookup cfg s (s.sc p).scSrc (s.sc p).scDst (s.sc p).scRtableid = some p := by
  obtain ⟨-, -, -, hhash, hindex⟩ := hinv.placed i hi p hp
  unfold synCacheLookup
  simp only [← hhash, ← hindex]
  cases hfind : List.find? _ (s.tcpSynCache i).schBucket with
  | none =>
    have hno := List.find?_eq_none.mp hfind p hp
    simp at hno
  | some q =>
    have hmem : q ∈ s.bucket i := List.mem_of_find?_eq_some hfind
    have hq := List.find?_some hfind
    simp only [Bool.and_eq_true, decide_eq_true_eq] at hq
    obtain ⟨⟨⟨-, hsrc⟩, hdst⟩, hrt⟩ := hq
    exact congrArg some (hinv.keys i hi q hmem p hp ⟨hsrc, hdst, hrt.symm⟩)

theorem noKey_of_lookup (hinv : Inv cfg s) {sc : SynCache}
    (hnone : synCacheLookup cfg s sc.scSrc sc.scDst sc.scRtableid = none) : NoKey cfg s sc := by
  rintro i hi p hp ⟨hsrc, hdst, hrt⟩
  obtain ⟨-, -, -, hhash, hindex⟩ := hinv.placed i hi p hp
  unfold synCacheLookup at hnone
  rw [hsrc, hdst] at hhash
  simp only [← hhash, ← hindex] at hnone
  have hno := List.find?_eq_none.mp hnone p hp
  simp [hsrc, hdst, hrt] at hno

theorem live_of_lookup (hinv : Inv cfg s) (hsize : 1 ≤ cfg.tcpSynCacheSize) {src dst : Sockaddr}
    {rtableid p : Nat} (h : synCacheLookup cfg s src dst rtableid = some p) :
    p < s.next ∧ (s.sc p).scfDead = false := by
  have hpl := hinv.placed _ (Nat.mod_lt _ hsize) p (List.mem_of_find?_eq_some h)
  exact ⟨hpl.allocated, hpl.alive⟩

/-! ## The other ways out of the cache -/

theorem synCacheGet_inv (hinv : Inv cfg s) (hsize : 1 ≤ cfg.tcpSynCacheSize) (src dst : Sockaddr)
    (rtableid : Nat) (thSeq thAck : BitVec 32) : Inv cfg (synCacheGet cfg s src dst rtableid thSeq thAck) := by
  unfold synCacheGet
  cases hl : synCacheLookup cfg s src dst rtableid with
  | none => exact hinv
  | some p =>
    obtain ⟨hp, halive⟩ := live_of_lookup hinv hsize hl
    simp only
    split_ifs
    · exact hinv
    · exact inv_rm hinv hp halive

theorem synCacheReset_inv (hinv : Inv cfg s) (hsize : 1 ≤ cfg.tcpSynCacheSize) (src dst : Sockaddr)
    (rtableid : Nat) (thSeq : BitVec 32) : Inv cfg (synCacheReset cfg s src dst rtableid thSeq) := by
  unfold synCacheReset
  cases hl : synCacheLookup cfg s src dst rtableid with
  | none => exact hinv
  | some p =>
    obtain ⟨hp, halive⟩ := live_of_lookup hinv hsize hl
    simp only
    split_ifs
    · exact hinv
    · exact inv_rm hinv hp halive

theorem synCacheUnreach_inv (hinv : Inv cfg s) (hsize : 1 ≤ cfg.tcpSynCacheSize) (src dst : Sockaddr)
    (rtableid : Nat) (thSeq : BitVec 32) : Inv cfg (synCacheUnreach cfg s src dst rtableid thSeq) := by
  unfold synCacheUnreach
  cases hl : synCacheLookup cfg s src dst rtableid with
  | none => exact hinv
  | some p =>
    obtain ⟨hp, halive⟩ := live_of_lookup hinv hsize hl
    simp only
    split_ifs
    · exact hinv
    · exact inv_setSc hinv rfl rfl rfl rfl rfl rfl
    · exact inv_rm hinv hp halive

theorem synCacheTimer_inv (hinv : Inv cfg s) {p : Nat} (hp : p < s.next) : Inv cfg (synCacheTimer cfg s p) := by
  unfold synCacheTimer
  simp only
  split_ifs with hdead hshift hold
  · exact hinv
  · exact inv_rm hinv hp (Bool.eq_false_iff.mpr hdead)
  · have hset : Inv cfg (s.setSc p { s.sc p with scRxttot := (s.sc p).scRxttot + (s.sc p).scRxtcur }) :=
      inv_setSc hinv rfl rfl rfl rfl rfl rfl
    refine inv_rm hset hp ?_
    simp only [State.setSc, if_true]
    exact Bool.eq_false_iff.mpr hdead
  · exact inv_setSc hinv rfl rfl rfl rfl rfl rfl

/-- By induction over the list of the socket: an entry stays on it until its turn. -/
theorem foldl_rm_inv (l : List Nat) : ∀ s : State, Inv cfg s → l.Nodup →
    (∀ p ∈ l, p < s.next ∧ (s.sc p).scfDead = false) → Inv cfg (l.foldl synCacheRm s) := by
  induction l with
  | nil => exact fun s hinv _ _ => hinv
  | cons p l ih =>
    intro s hinv hnd hlive
    obtain ⟨hpl, hnd⟩ := List.nodup_cons.mp hnd
    obtain ⟨hp, halive⟩ := hlive p List.mem_cons_self
    refine ih _ (inv_rm hinv hp halive) hnd fun q hq => ?_
    have hne : q ≠ p := fun h => hpl (h ▸ hq)
    rw [sc_rm, if_neg hne]
    exact hlive q (List.mem_cons_of_mem p hq)

theorem synCacheCleanup_inv (hinv : Inv cfg s) (tp : Nat) : Inv cfg (synCacheCleanup s tp) := by
  have hfold := foldl_rm_inv (s.tSc tp) s hinv (hinv.socks_nodup tp) (hinv.socks tp)
  unfold synCacheCleanup
  refine { hfold with placed := fun i hi p hp => ?_, socks := fun t p hp => ?_, socks_nodup := fun t => ?_ }
  · obtain ⟨halloc, halive, hidx, hhash, hindex⟩ := hfold.placed i hi p hp
    exact ⟨halloc, halive, hidx, hhash, hindex⟩
  · simp only at hp
    split_ifs at hp
    · cases hp
    · exact hfold.socks t p hp
  · simp only
    split_ifs
    · exact List.nodup_nil
    · exact hfold.socks_nodup t

/-! ## Runs -/

theorem step_inv (hsize : 1 ≤ cfg.tcpSynCacheSize) (hlimit : 1 ≤ cfg.tcpSynCacheLimit)
    (hbucket : 1 ≤ cfg.tcpSynBucketLimit)
    (hshort : cfg.tcpSynBucketLimit ≤ 65535 ∨ cfg.tcpSynCacheLimit ≤ 65535) (s : State) (a : Act)
    (s' : State) (hstep : step cfg s a = some s') (hinv : Inv cfg s) : Inv cfg s' := by
  cases a with
  | add src dst rtableid irs iss win tp pool responds rnd1 rnd2 =>
    simp only [step, synCacheAdd] at hstep
    cases hl : synCacheLookup cfg s src dst rtableid with
    | some p =>
      simp only [hl] at hstep
      exact Option.some.inj hstep ▸ hinv
    | none =>
      simp only [hl] at hstep
      split_ifs at hstep
      · have hkey : NoKey cfg s
            ⟨0#32, 0, src, dst, rtableid, irs, iss, win, 0, 0, 0, false, false, some tp⟩ :=
          noKey_of_lookup hinv hl
        obtain ⟨s1, hs1, hinv1⟩ :=
          synCacheInsert_inv hinv hsize hlimit hbucket hshort rfl hkey tp rnd1 rnd2
        exact Option.some.inj (hs1.symm.trans hstep) ▸ hinv1
      · exact Option.some.inj hstep ▸ hinv
  | get src dst rtableid thSeq thAck =>
    exact Option.some.inj hstep ▸ synCacheGet_inv hinv hsize src dst rtableid thSeq thAck
  | reset src dst rtableid thSeq =>
    exact Option.some.inj hstep ▸ synCacheReset_inv hinv hsize src dst rtableid thSeq
  | unreach src dst rtableid thSeq =>
    exact Option.some.inj hstep ▸ synCacheUnreach_inv hinv hsize src dst rtableid thSeq
  | timer p =>
    simp only [step] at hstep
    split_ifs at hstep with hp
    exact Option.some.inj hstep ▸ synCacheTimer_inv hinv hp
  | cleanup tp => exact Option.some.inj hstep ▸ synCacheCleanup_inv hinv tp

/-- What is said of every reachable state. -/
structure Counted (cfg : Config) (s : State) : Prop where
  length : ∀ i < cfg.tcpSynCacheSize, (s.tcpSynCache i).schLength.toNat = (s.tcpSynCache i).schBucket.length
  length_le : ∀ i < cfg.tcpSynCacheSize, (s.tcpSynCache i).schLength.toNat ≤ cfg.tcpSynBucketLimit
  count : s.synCacheCount
    = ∑ i ∈ Finset.range cfg.tcpSynCacheSize, (s.tcpSynCache i).schLength.toNat
  count_le : s.synCacheCount ≤ cfg.tcpSynCacheLimit
  placed : ∀ i < cfg.tcpSynCacheSize, ∀ p ∈ (s.tcpSynCache i).schBucket,
    i = (synHashall s.synHash1 s.synHash2 (s.sc p).scSrc (s.sc p).scDst).toNat % cfg.tcpSynCacheSize
  found : ∀ i < cfg.tcpSynCacheSize, ∀ p ∈ (s.tcpSynCache i).schBucket,
    synCacheLookup cfg s (s.sc p).scSrc (s.sc p).scDst (s.sc p).scRtableid = some p
  victim : ∀ scp < cfg.tcpSynCacheSize, (s.tcpSynCache scp).schBucket = [] →
    cfg.tcpSynCacheLimit ≤ s.synCacheCount →
    ∃ i < cfg.tcpSynCacheSize, Syn.victim cfg s scp cfg.tcpSynCacheSize (scp + 1) = some i
      ∧ (s.tcpSynCache i).schBucket ≠ []

theorem Inv.counted (hinv : Inv cfg s) (hlimit : 1 ≤ cfg.tcpSynCacheLimit) : Counted cfg s where
  length := hinv.length
  length_le := by
    intro i hi
    rw [hinv.length i hi]
    exact hinv.length_le i hi
  count := by
    rw [hinv.count]
    exact Finset.sum_congr rfl fun i hi => (hinv.length i (Finset.mem_range.mp hi)).symm
  count_le := hinv.count_le
  placed := by
    intro i hi p hp
    obtain ⟨-, -, -, hhash, hindex⟩ := hinv.placed i hi p hp
    rw [← hhash]
    exact hindex
  found := fun i hi p hp => synCacheLookup_self hinv hi hp
  victim := fun scp hscp hempty hfull => victim_of_count hinv hscp hempty (by omega)

/-! ## A flood

Entries whose local address alone differs have the same hash. If neither
limit is below 2¹⁶, so many of them are taken in that `sch_length` wraps. -/

structure Flooded (n : Nat) (s : State) : Prop where
  next : s.next = n
  count : s.synCacheCount = n
  bucket : s.bucket 0 = List.range n
  length : (s.tcpSynCache 0).schLength = BitVec.ofNat 16 n
  secret : s.synHash1 = 0#32
  sc : ∀ p < n, (s.sc p).scDst = .inet (BitVec.ofNat 32 p) 0#16

theorem synHashall_flood {h1 : BitVec 32} (h : h1 = 0#32) (h2 : BitVec 32) (dst : Sockaddr) :
    synHashall h1 h2 (.inet 0#32 0#16) dst = 0#32 := by
  rw [h, synHashall, BitVec.xor_self, BitVec.zero_mul]

theorem lookup_flood {n : Nat} (h : Flooded n s) (hn : n < 2 ^ 32) :
    synCacheLookup cfg s (.inet 0#32 0#16) (.inet (BitVec.ofNat 32 n) 0#16) 0 = none := by
  unfold synCacheLookup
  have hbucket : (s.tcpSynCache 0).schBucket = List.range n := h.bucket
  simp only [synHashall_flood h.secret, BitVec.toNat_ofNat, Nat.zero_mod, hbucket]
  refine List.find?_eq_none.mpr fun p hp => ?_
  have hp' : p < n := List.mem_range.mp hp
  have hdst : ¬(s.sc p).scDst = .inet (BitVec.ofNat 32 n) 0#16 := by
    rw [h.sc p hp', Sockaddr.inet.injEq]
    rintro ⟨heq, -⟩
    have := congrArg BitVec.toNat heq
    rw [BitVec.toNat_ofNat, BitVec.toNat_ofNat] at this
    omega
  simp [hdst]

theorem makeRoom_flood {n : Nat} (h : Flooded n s) (hn : n < 65536)
    (hbucket : 65536 ≤ cfg.tcpSynBucketLimit) (hlimit : 65536 ≤ cfg.tcpSynCacheLimit) :
    makeRoom cfg s 0 = some s := by
  have hcount := h.count
  unfold makeRoom
  rw [if_neg (by omega), if_neg (by omega)]

theorem flooded_link {n : Nat} (h : Flooded n s) {sc : SynCache} (tp : Nat) (hidx : sc.scBucketidx = 0)
    (hdst : sc.scDst = .inet (BitVec.ofNat 32 n) 0#16) : Flooded (n + 1) (linkEntry s sc tp) where
  next := congrArg (· + 1) h.next
  count := congrArg (· + 1) h.count
  bucket := by rw [bucket_link, if_pos hidx.symm, h.bucket, h.next, List.range_succ]
  length := by rw [schLength_link, if_pos hidx.symm, h.length, BitVec.ofNat_add]
  secret := h.secret
  sc := by
    intro p hp
    rw [sc_link, h.next]
    split_ifs with hpn
    · rw [hdst, hpn]
    · exact h.sc p (by omega)

theorem add_flood {n : Nat} (h : Flooded n s) (hn : n < 65536)
    (hbucket : 65536 ≤ cfg.tcpSynBucketLimit) (hlimit : 65536 ≤ cfg.tcpSynCacheLimit) :
    ∃ s', synCacheAdd cfg s (.inet 0#32 0#16) (.inet (BitVec.ofNat 32 n) 0#16) 0 0#32 0#32 0#32 0
      true true 0#32 0#32 = some s' ∧ Flooded (n + 1) s' := by
  unfold synCacheAdd synCacheInsert
  rw [lookup_flood h (by omega)]
  obtain ⟨s1, hs1, hflood⟩ : ∃ s1,
      (if s.synCacheCount = 0 then { s with synHash1 := 0#32, synHash2 := 0#32 } else s) = s1
        ∧ Flooded n s1 := by
    split_ifs
    · exact ⟨_, rfl, { h with secret := rfl }⟩
    · exact ⟨s, rfl, h⟩
  simp only [hs1, synHashall_flood hflood.secret, BitVec.toNat_ofNat, Nat.zero_mod, Bool.and_self, if_true,
    makeRoom_flood hflood hn hbucket hlimit, Option.map_some]
  exact ⟨_, rfl, flooded_link hflood 0 rfl rfl⟩

theorem runs_flood (hbucket : 65536 ≤ cfg.tcpSynBucketLimit) (hlimit : 65536 ≤ cfg.tcpSynCacheLimit)
    (n : Nat) (hn : n ≤ 65536) : ∃ s, Runs (step cfg) (fun _ _ => True) {} s ∧ Flooded n s := by
  induction n with
  | zero => exact ⟨{}, .refl, rfl, rfl, rfl, rfl, rfl, nofun⟩
  | succ n ih =>
    obtain ⟨s, hrun, hflood⟩ := ih (by omega)
    obtain ⟨s', hadd, hflood'⟩ := add_flood hflood (by omega) hbucket hlimit
    exact ⟨s', hrun.tail ⟨.add _ _ _ _ _ _ _ _ _ _ _, trivial, hadd⟩, hflood'⟩

/-- The length has come round to 0. -/
theorem Flooded.not_counted (h : Flooded 65536 s) (hsize : 1 ≤ cfg.tcpSynCacheSize) : ¬Counted cfg s := by
  intro hc
  have hlen := hc.length 0 hsize
  have hbucket : (s.tcpSynCache 0).schBucket = List.range 65536 := h.bucket
  rw [h.length, hbucket, List.length_range] at hlen
  exact absurd hlen (by decide)

/-- **The SYN cache keeps count**, in every run, exactly if one of the limits fits in the
16 bits of `sch_length`. -/
theorem syn_cache_runs (cfg : Config) (hsize : 1 ≤ cfg.tcpSynCacheSize)
    (hlimit : 1 ≤ cfg.tcpSynCacheLimit) (hbucket : 1 ≤ cfg.tcpSynBucketLimit) :
    (∀ s, Runs (step cfg) (fun _ _ => True) {} s → Counted cfg s) ↔
      cfg.tcpSynBucketLimit ≤ 65535 ∨ cfg.tcpSynCacheLimit ≤ 65535 := by
  constructor
  · intro hall
    by_contra hlong
    rw [not_or, Nat.not_le, Nat.not_le] at hlong
    obtain ⟨s, hrun, hflood⟩ := runs_flood hlong.1 hlong.2 65536 (Nat.le_refl _)
    exact hflood.not_counted hsize (hall s hrun)
  · intro hshort s hrun
    have hkeep : ∀ s a s', True → step cfg s a = some s' → Inv cfg s → Inv cfg s' :=
      fun s a s' _ => step_inv hsize hlimit hbucket hshort s a s'
    exact (Runs.invariant hkeep hrun (inv_init cfg)).counted hlimit

/-- The limits the system starts with. -/
theorem syn_cache_default :
    (3 * 35 ≤ 65535 ∨ 293 * 35 ≤ 65535)
      ∧ ∀ s, Runs (step ⟨293, 293 * 35, 3 * 35, 150, id⟩) (fun _ _ => True) {} s →
        Counted ⟨293, 293 * 35, 3 * 35, 150, id⟩ s := by
  have hshort : 3 * 35 ≤ 65535 ∨ 293 * 35 ≤ 65535 := .inl (by decide)
  exact ⟨hshort, (syn_cache_runs ⟨293, 293 * 35, 3 * 35, 150, id⟩ (by decide) (by decide)
    (by decide)).mpr hshort⟩

/-- With limits of 100000 the length of a bucket wraps. -/
theorem syn_cache_wraps :
    ¬∀ s, Runs (step ⟨293, 100000, 100000, 150, id⟩) (fun _ _ => True) {} s →
      Counted ⟨293, 100000, 100000, 150, id⟩ s := by
  intro hall
  obtain ⟨s, hrun, hflood⟩ :=
    @runs_flood ⟨293, 100000, 100000, 150, id⟩ (by decide) (by decide) 65536 (Nat.le_refl _)
  exact hflood.not_counted (by decide) (hall s hrun)

end Obsd.Syn
