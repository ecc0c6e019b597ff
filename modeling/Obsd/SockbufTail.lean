import Obsd.Runs
import Obsd.SockbufSpec

/-!
# The cached ends of a socket buffer

`sblastrecordchk` and `sblastmbufchk` say what the two cached pointers are
to point to, and the counters are to be sums over the mbufs. The calls keep
that, with two exceptions: `sbappendrecord` leaves it to `sbcompress` to set
`sb_mbtail`, which does not when it links nothing behind the first mbuf; and
`sbinsertoob` lets `sbcompress` set it also when the record it has put in is
not the last one.
-/

namespace Obsd.Sb

variable {mem mem' : Mem} {sb sb' : Sockbuf} {m n : Mbuf} {ms chain : List Mbuf}

/-! ## Consistency -/

/-- The first mbuf of the last record. -/
def Sockbuf.endRecord (sb : Sockbuf) : Option Nat :=
  (sb.mb.getLast?.bind List.head?).map Mbuf.id

/-- The last mbuf of the last record. -/
def Sockbuf.endMbuf (sb : Sockbuf) : Option Nat :=
  (sb.mb.getLast?.bind List.getLast?).map Mbuf.id

/-- The counters are sums, and `sblastrecordchk` and `sblastmbufchk` are content. -/
structure Consistent (sb : Sockbuf) : Prop where
  cc : sb.cc = (sb.mb.flatten.map Mbuf.len).sum
  datacc : sb.datacc = (sb.mb.flatten.map Mbuf.datalen).sum
  mbcnt : sb.mbcnt = (sb.mb.flatten.map Mbuf.space).sum
  lastrecord : sb.lastrecord = sb.endRecord
  mbtail : sb.mbtail = sb.endMbuf

/-- No record is empty, and no mbuf is in the buffer twice. -/
structure Wf (sb : Sockbuf) : Prop where
  nonempty : [] ∉ sb.mb
  nodup : sb.ids.Nodup

theorem consistent_iff : Consistent sb ↔
    sb.counters = charges sb.mb.flatten ∧ sb.lastrecord = sb.endRecord
      ∧ sb.mbtail = sb.endMbuf := by
  rw [charges_eq, Sockbuf.counters, Prod.mk.injEq, Prod.mk.injEq]
  constructor
  · intro h
    exact ⟨⟨h.cc, h.datacc, h.mbcnt⟩, h.lastrecord, h.mbtail⟩
  · intro h
    exact ⟨h.1.1, h.1.2.1, h.1.2.2, h.2.1, h.2.2⟩

theorem consistent_empty (hiwat mbmax : Nat) : Consistent (.empty hiwat mbmax) :=
  ⟨rfl, rfl, rfl, rfl, rfl⟩

theorem wf_empty (hiwat mbmax : Nat) : Wf (.empty hiwat mbmax) :=
  ⟨List.not_mem_nil, List.nodup_nil⟩

/-- An empty buffer, or one with a last record that is not empty. -/
theorem Wf.cases (h : Wf sb) : sb.mb = [] ∨ ∃ rs b n, sb.mb = rs ++ [b ++ [n]] := by
  obtain hnil | ⟨rs, r, hconcat⟩ := sb.mb.eq_nil_or_concat
  · exact .inl hnil
  · rw [List.concat_eq_append] at hconcat
    obtain rfl | ⟨b, n, hr⟩ := r.eq_nil_or_concat
    · exact absurd (hconcat ▸ List.mem_append_right _ List.mem_cons_self) h.nonempty
    · rw [List.concat_eq_append] at hr
      exact .inr ⟨rs, b, n, by rw [hconcat, hr]⟩

theorem endMbuf_concat {rs : List (List Mbuf)} {b : List Mbuf} (h : sb.mb = rs ++ [b ++ [n]]) :
    sb.endMbuf = some n.id := by
  rw [Sockbuf.endMbuf, h, List.getLast?_concat, Option.bind_some, List.getLast?_concat]
  rfl

theorem endRecord_concat {rs : List (List Mbuf)} {r : List Mbuf} (h : sb.mb = rs ++ [r]) :
    sb.endRecord = r.head?.map Mbuf.id := by
  rw [Sockbuf.endRecord, h, List.getLast?_concat, Option.bind_some]

theorem endMbuf_mem {p : Nat} (h : sb.endMbuf = some p) : p ∈ sb.ids := by
  rw [Sockbuf.endMbuf, Option.map_eq_some_iff] at h
  obtain ⟨m, hm, rfl⟩ := h
  obtain ⟨r, hr, hm⟩ := Option.bind_eq_some_iff.mp hm
  exact List.mem_map_of_mem (List.mem_flatten_of_mem (List.mem_of_getLast? hr)
    (List.mem_of_getLast? hm))

theorem endRecord_mem {p : Nat} (h : sb.endRecord = some p) : p ∈ sb.ids := by
  rw [Sockbuf.endRecord, Option.map_eq_some_iff] at h
  obtain ⟨m, hm, rfl⟩ := h
  obtain ⟨r, hr, hm⟩ := Option.bind_eq_some_iff.mp hm
  exact List.mem_map_of_mem (List.mem_flatten_of_mem (List.mem_of_getLast? hr)
    (List.mem_of_mem_head? hm))

/-! ## sbcompress -/

/-- The counters are right and `sb_lastrecord` is; nothing is said of `sb_mbtail`. -/
structure Counted (sb : Sockbuf) : Prop where
  counters : sb.counters = charges sb.mb.flatten
  lastrecord : sb.lastrecord = sb.endRecord

theorem Consistent.counted (h : Consistent sb) : Counted sb :=
  ⟨(consistent_iff.mp h).1, h.lastrecord⟩

theorem Counted.consistent_iff (h : Counted sb) : Consistent sb ↔ sb.mbtail = sb.endMbuf := by
  rw [Sb.consistent_iff]
  exact ⟨fun hc => hc.2.2, fun ht => ⟨h.counters, h.lastrecord, ht⟩⟩

/-- `sbcompress` behind the last mbuf of any record. -/
theorem sbcompress_at {b : List Mbuf} {front back : List (List Mbuf)}
    (h : sbcompress mem sb chain (some n.id) = some (mem', sb'))
    (hmb : sb.mb = front ++ (b ++ [n]) :: back) (hwf : Wf sb) (hc : Counted sb)
    (hfresh : (sb.ids ++ chain.map Mbuf.id).Nodup) :
    ∃ n' linked, sb'.mb = front ++ (b ++ n' :: linked) :: back ∧ Wf sb' ∧ Counted sb'
      ∧ (linked.map Mbuf.id).Sublist (chain.map Mbuf.id)
      ∧ sb'.mbtail = (linked.getLast?.map Mbuf.id).or sb.mbtail
      ∧ sb'.endMbuf = (if back = [] then (linked.getLast?.map Mbuf.id).or (some n.id)
          else sb.endMbuf)
      ∧ (linked = [] ↔ swallows chain mem false n = true) := by
  have hdis := (List.nodup_append'.mp hfresh).2.2
  obtain ⟨n', linked, hmb', hid, hsub, hlast, htail, hsw, hcount⟩ :=
    sbcompress_some h hmb hwf.nodup fun p hp hin =>
      hdis (endRecord_mem (hc.lastrecord ▸ hp)) hin
  have hwf' : Wf sb' := by
    refine ⟨?_, ?_⟩
    · intro hin
      rw [hmb', List.mem_append, List.mem_cons] at hin
      obtain hin | hin | hin := hin
      · exact hwf.nonempty (hmb ▸ List.mem_append_left _ hin)
      · exact absurd hin (by simp)
      · exact hwf.nonempty (hmb ▸ List.mem_append_right _ (List.mem_cons_of_mem _ hin))
    · have hperm : sb'.ids.Perm (sb.ids ++ linked.map Mbuf.id) := by
        rw [Sockbuf.ids, Sockbuf.ids, hmb', hmb]
        simp only [List.flatten_append, List.flatten_cons, List.map_append, List.map_cons, hid,
          List.append_assoc, List.cons_append, List.nil_append]
        exact ((List.perm_append_comm.cons _).append_left _).append_left _
      exact hperm.nodup_iff.mpr (hfresh.sublist (hsub.append_left _))
  have hends : sb'.endRecord = sb.endRecord ∧ sb'.endMbuf
      = if back = [] then (linked.getLast?.map Mbuf.id).or (some n.id) else sb.endMbuf := by
    obtain hnil | ⟨bs, r, hconcat⟩ := back.eq_nil_or_concat
    · rw [hnil] at hmb hmb' ⊢
      rw [if_pos rfl, endRecord_concat hmb, endRecord_concat hmb']
      refine ⟨?_, ?_⟩
      · cases b with
        | nil => exact congrArg some hid
        | cons m ms => rfl
      · rw [Sockbuf.endMbuf, hmb', List.getLast?_concat, Option.bind_some, List.getLast?_append,
          List.getLast?_cons]
        cases linked.getLast? with
        | none => exact congrArg some hid
        | some l => rfl
    · have hlast : sb'.mb.getLast? = sb.mb.getLast? := by
        rw [hmb', hmb, hconcat, List.concat_eq_append, ← List.cons_append, ← List.cons_append,
          ← List.append_assoc, ← List.append_assoc, List.getLast?_concat, List.getLast?_concat]
      have hne : back ≠ [] := by
        rw [hconcat, List.concat_eq_append]
        exact List.concat_ne_nil r bs
      rw [if_neg hne, Sockbuf.endRecord, Sockbuf.endMbuf, hlast]
      exact ⟨rfl, rfl⟩
  refine ⟨n', linked, hmb', hwf', ⟨hcount hc.counters, ?_⟩, hsub, htail, hends.2, hsw⟩
  rw [hlast, hc.lastrecord, hends.1]

/-! ## Calls -/

inductive Call where
  | append (m : List Mbuf)
  | appendstream (m : List Mbuf)
  | appendrecord (m0 : List Mbuf)
  | insertoob (m0 : List Mbuf)
  | appendaddr (asa : List UInt8) (alloc : Option Nat) (m0 control : List Mbuf)
  | appendcontrol (m0 control : List Mbuf)
  | drop (len : Int)
  | droprecord
  | flush (fuel : Nat)

/-- A call on the buffer, with the memory it is made in. -/
def call (sb : Sockbuf) : Mem × Call → Option Sockbuf
  | (mem, .append m) => (sbappend mem sb m).map Prod.snd
  | (mem, .appendstream m) => (sbappendstream mem sb m).map Prod.snd
  | (mem, .appendrecord m0) => (sbappendrecord mem sb m0).map Prod.snd
  | (mem, .insertoob m0) => (sbinsertoob mem sb m0).map Prod.snd
  | (mem, .appendaddr asa alloc m0 control) =>
    (sbappendaddr mem sb asa alloc m0 control).map fun r => r.2.2
  | (_, .appendcontrol m0 control) => (sbappendcontrol sb m0 control).map Prod.snd
  | (mem, .drop len) => (sbdrop mem sb len).map Prod.snd
  | (mem, .droprecord) => some (sbdroprecord mem sb).2
  | (mem, .flush fuel) => (sbflush fuel mem sb).map Prod.snd

/-- The addresses of the mbufs a call hands over. -/
def Call.ids : Call → List Nat
  | .append m | .appendstream m | .appendrecord m | .insertoob m => m.map Mbuf.id
  | .appendaddr _ alloc m0 control => alloc.toList ++ (control ++ m0).map Mbuf.id
  | .appendcontrol m0 control => (control ++ m0).map Mbuf.id
  | .drop _ | .droprecord | .flush _ => []

/-- The mbufs handed over are the caller's: in no buffer, and each of them once. -/
def Fresh (sb : Sockbuf) (c : Call) : Prop := (sb.ids ++ c.ids).Nodup

/-- The rest of a chain that is to start a record is swallowed by its first mbuf. -/
def swallowed (mem : Mem) : List Mbuf → Bool
  | [] => false
  | m0 :: ms => swallows (moveEor m0 ms).2 mem false (moveEor m0 ms).1

/-- What keeps `sb_mbtail` right: a chain appended as a record is not swallowed by its
first mbuf, and one put in as out-of-band data is, unless its record is the last. -/
def KeepsTail (mem : Mem) (sb : Sockbuf) : Call → Prop
  | .append m => (sb.mb.getLast?.getD []).any Mbuf.eor = true → swallowed mem m = false
  | .appendrecord m0 => swallowed mem m0 = false
  | .insertoob m0 => m0 ≠ [] →
    (swallowed mem m0 = true ↔ sb.mb.dropWhile oobTrain ≠ [])
  | _ => True

theorem moveEor_id (m0 : Mbuf) (ms : List Mbuf) : (moveEor m0 ms).1.id = m0.id := by
  cases ms with
  | nil => rfl
  | cons m ms =>
    rw [moveEor]
    split <;> rfl

theorem moveEor_charge (m0 : Mbuf) (ms : List Mbuf) :
    (moveEor m0 ms).1.charge = m0.charge := by
  cases ms with
  | nil => rfl
  | cons m ms =>
    rw [moveEor]
    split <;> rfl

theorem moveEor_ids (m0 : Mbuf) (ms : List Mbuf) :
    (moveEor m0 ms).2.map Mbuf.id = ms.map Mbuf.id := by
  cases ms with
  | nil => rfl
  | cons m ms =>
    rw [moveEor]
    split <;> rfl

/-- A record put in between the records of a consistent buffer, with the rest of the chain
compressed behind its first mbuf. The pointer is right if the record is not the last one
and nothing was linked, or if it is and something was. -/
theorem insert_spec {front back : List (List Mbuf)} {sb₁ : Sockbuf}
    (h : sbcompress mem sb₁ chain (some n.id) = some (mem', sb')) (hwf : Wf sb)
    (hc : Consistent sb) (hsplit : sb.mb = front ++ back) (hmb : sb₁.mb = front ++ [n] :: back)
    (hcount : sb₁.counters = sb.counters + n.charge)
    (hlast : sb₁.lastrecord = if back = [] then some n.id else sb.lastrecord)
    (htail : sb₁.mbtail = sb.mbtail)
    (hfresh : (sb.ids ++ n.id :: chain.map Mbuf.id).Nodup) :
    Wf sb' ∧ (Consistent sb' ↔ (swallows chain mem false n = true ↔ back ≠ [])) := by
  have hperm : sb₁.ids.Perm (sb.ids ++ [n.id]) := by
    rw [Sockbuf.ids, Sockbuf.ids, hmb, hsplit]
    simp only [List.flatten_append, List.flatten_cons, List.map_append, List.map_cons,
      List.append_assoc, List.cons_append, List.nil_append]
    exact (List.perm_append_singleton _ _).symm.append_left _
  have hfresh₁ : (sb₁.ids ++ chain.map Mbuf.id).Nodup := by
    rw [(hperm.append_right _).nodup_iff, List.append_assoc]
    exact hfresh
  have hwf₁ : Wf sb₁ := by
    refine ⟨?_, (List.nodup_append'.mp hfresh₁).1⟩
    have hne := hwf.nonempty
    rw [hsplit, List.mem_append, not_or] at hne
    rw [hmb, List.mem_append, List.mem_cons]
    rintro (hin | hin | hin)
    · exact hne.1 hin
    · cases hin
    · exact hne.2 hin
  have hends : sb₁.endRecord = (if back = [] then some n.id else sb.endRecord)
      ∧ (back ≠ [] → sb₁.endMbuf = sb.endMbuf) := by
    obtain hnil | ⟨bs, r, hconcat⟩ := back.eq_nil_or_concat
    · rw [hnil] at hmb ⊢
      exact ⟨endRecord_concat hmb, fun hne => absurd rfl hne⟩
    · rw [List.concat_eq_append] at hconcat
      have hlast : sb₁.mb.getLast? = sb.mb.getLast? := by
        rw [hmb, hsplit, hconcat, ← List.cons_append, ← List.append_assoc, ← List.append_assoc,
          List.getLast?_concat, List.getLast?_concat]
      have hne : back ≠ [] := hconcat ▸ List.concat_ne_nil r bs
      rw [if_neg hne, Sockbuf.endRecord, Sockbuf.endMbuf, hlast]
      exact ⟨rfl, fun _ => rfl⟩
  have hc₁ : Counted sb₁ := by
    refine ⟨?_, by rw [hlast, hends.1, hc.lastrecord]⟩
    rw [hcount, (consistent_iff.mp hc).1, hmb, hsplit]
    simp only [List.flatten_append, List.flatten_cons, charges_append, charges_cons, charges_nil,
      add_zero]
    ac_rfl
  obtain ⟨n', linked, -, hwf', hc', hsub, htail', hend', hsw⟩ :=
    sbcompress_at (b := []) h hmb hwf₁ hc₁ hfresh₁
  have hdis := (List.nodup_append'.mp hfresh).2.2
  refine ⟨hwf', ?_⟩
  rw [hc'.consistent_iff, htail', hend', htail, hc.mbtail, ← hsw]
  by_cases hback : back = []
  · rw [if_pos hback]
    cases hl : linked.getLast? with
    | none =>
      have hnil : linked = [] := List.getLast?_eq_none_iff.mp hl
      refine iff_of_false (fun he => ?_) (fun he => (he.mp hnil) hback)
      exact hdis (endMbuf_mem he) List.mem_cons_self
    | some l =>
      have hne : linked ≠ [] := by
        intro hnil
        rw [hnil] at hl
        cases hl
      exact iff_of_true rfl (iff_of_false hne fun h => h hback)
  · rw [if_neg hback, hends.2 hback]
    cases hl : linked.getLast? with
    | none =>
      have hnil : linked = [] := List.getLast?_eq_none_iff.mp hl
      exact iff_of_true rfl (iff_of_true hnil hback)
    | some l =>
      have hmem : l ∈ linked := List.mem_of_getLast? hl
      refine iff_of_false (fun he => ?_) (fun he => ?_)
      · exact hdis (endMbuf_mem he.symm)
          (List.mem_cons_of_mem _ (hsub.subset (List.mem_map_of_mem hmem)))
      · rw [he.mpr hback] at hmem
        exact List.not_mem_nil hmem

theorem sbappendrecord_spec (hwf : Wf sb) (hc : Consistent sb)
    (hfresh : (sb.ids ++ chain.map Mbuf.id).Nodup)
    (h : sbappendrecord mem sb chain = some (mem', sb')) :
    Wf sb' ∧ (Consistent sb' ↔ swallowed mem chain = false) := by
  cases chain with
  | nil =>
    obtain rfl : sb = sb' := congrArg Prod.snd (Option.some.inj h)
    exact ⟨hwf, iff_of_true hc rfl⟩
  | cons m0 ms =>
    have hlink : sblinkrecord (sballoc sb m0) [(moveEor m0 ms).1] = some _ :=
      sblinkrecord_spec (sballoc sb m0) hwf.nonempty hwf.nodup hc.lastrecord _
    rw [sbappendrecord, hlink, Option.bind_some, ← moveEor_id m0 ms] at h
    rw [List.map_cons, ← moveEor_id m0 ms, ← moveEor_ids m0 ms] at hfresh
    have hspec := insert_spec h hwf hc (List.append_nil _).symm rfl
      (by rw [moveEor_charge]; rfl) rfl rfl hfresh
    refine ⟨hspec.1, hspec.2.trans ?_⟩
    rw [swallowed]
    cases swallows (moveEor m0 ms).2 mem false (moveEor m0 ms).1 <;> simp

theorem sbinsertoob_spec (hwf : Wf sb) (hc : Consistent sb)
    (hfresh : (sb.ids ++ chain.map Mbuf.id).Nodup)
    (h : sbinsertoob mem sb chain = some (mem', sb')) :
    Wf sb' ∧ (Consistent sb' ↔ (chain ≠ [] →
      (swallowed mem chain = true ↔ sb.mb.dropWhile oobTrain ≠ []))) := by
  cases chain with
  | nil =>
    obtain rfl : sb = sb' := congrArg Prod.snd (Option.some.inj h)
    exact ⟨hwf, iff_of_true hc fun hne => absurd rfl hne⟩
  | cons m0 ms =>
    rw [sbinsertoob, ← moveEor_id m0 ms] at h
    rw [List.map_cons, ← moveEor_id m0 ms, ← moveEor_ids m0 ms] at hfresh
    have hspec := insert_spec h hwf hc (List.takeWhile_append_dropWhile).symm rfl
      (by rw [moveEor_charge]; rfl) rfl rfl hfresh
    refine ⟨hspec.1, hspec.2.trans ?_⟩
    exact ⟨fun hiff _ => hiff, fun hiff => hiff (List.cons_ne_nil m0 ms)⟩

/-- With the pointer at the last mbuf, appending behind it keeps it there. -/
theorem compress_end {rs : List (List Mbuf)} {b : List Mbuf} (hwf : Wf sb) (hc : Consistent sb)
    (hmb : sb.mb = rs ++ [b ++ [n]]) (hfresh : (sb.ids ++ chain.map Mbuf.id).Nodup)
    (h : sbcompress mem sb chain (some n.id) = some (mem', sb')) :
    Wf sb' ∧ Consistent sb' ∧ sb'.mb.length = sb.mb.length := by
  obtain ⟨n', linked, hmb', hwf', hc', -, htail', hend', -⟩ :=
    sbcompress_at h hmb hwf hc.counted hfresh
  refine ⟨hwf', hc'.consistent_iff.mpr ?_, ?_⟩
  · rw [htail', hend', if_pos rfl, hc.mbtail, endMbuf_concat hmb]
  · rw [hmb', hmb, List.length_append, List.length_append]
    rfl

/-- Appending to an empty buffer. `sb_lastrecord` is right afterwards if it was set to the
chain before. -/
theorem compress_empty (h : sbcompress mem sb chain none = some (mem', sb')) (hmb : sb.mb = [])
    (hzero : sb.counters = 0) (hnone : sb.mbtail = none) (hnd : (chain.map Mbuf.id).Nodup) :
    Wf sb' ∧ sb'.counters = charges sb'.mb.flatten ∧ sb'.mbtail = sb'.endMbuf
      ∧ sb'.mb.length ≤ 1
      ∧ (sb.lastrecord = chain.head?.map Mbuf.id → sb'.lastrecord = sb'.endRecord) := by
  obtain ⟨linked, hmb', hsub, hlast', htail', hcount'⟩ := sbcompress_none h hmb hnd
  have hcount := hcount' hzero
  by_cases hl : linked = []
  · rw [if_pos hl] at hmb'
    refine ⟨⟨?_, ?_⟩, ?_, ?_, ?_, fun hhead => ?_⟩
    · rw [hmb']
      exact List.not_mem_nil
    · rw [Sockbuf.ids, hmb']
      exact List.nodup_nil
    · rw [hcount, hl, hmb']
      rfl
    · rw [htail', hl, Sockbuf.endMbuf, hmb']
      exact hnone
    · rw [hmb']
      exact Nat.zero_le 1
    · rw [hlast' hhead, hl, Sockbuf.endRecord, hmb']
      rfl
  · rw [if_neg hl] at hmb'
    have hflat : sb'.mb.flatten = linked := by
      rw [hmb', List.flatten_cons, List.flatten_nil, List.append_nil]
    refine ⟨⟨?_, ?_⟩, ?_, ?_, ?_, fun hhead => ?_⟩
    · rw [hmb', List.mem_singleton]
      exact Ne.symm hl
    · rw [Sockbuf.ids, hflat]
      exact hnd.sublist hsub
    · rw [hcount, hflat]
    · obtain ⟨l, hl'⟩ := Option.ne_none_iff_exists'.mp
        (fun hnone => hl (List.getLast?_eq_none_iff.mp hnone))
      rw [htail', hl', Sockbuf.endMbuf, hmb']
      exact congrArg (Option.map Mbuf.id) hl'.symm
    · rw [hmb']
      exact le_rfl
    · rw [hlast' hhead, endRecord_concat (show sb'.mb = [] ++ [linked] from hmb')]

theorem Consistent.of_nil (hc : Consistent sb) (hmb : sb.mb = []) :
    sb.counters = 0 ∧ sb.lastrecord = none ∧ sb.mbtail = none := by
  refine ⟨?_, ?_, ?_⟩
  · rw [(consistent_iff.mp hc).1, hmb]
    rfl
  · rw [hc.lastrecord, Sockbuf.endRecord, hmb]
    rfl
  · rw [hc.mbtail, Sockbuf.endMbuf, hmb]
    rfl

theorem sbappend_spec (hwf : Wf sb) (hc : Consistent sb)
    (hfresh : (sb.ids ++ chain.map Mbuf.id).Nodup)
    (h : sbappend mem sb chain = some (mem', sb')) :
    Wf sb' ∧ (Consistent sb' ↔
      ((sb.mb.getLast?.getD []).any Mbuf.eor = true → swallowed mem chain = false)) := by
  cases chain with
  | nil =>
    obtain rfl : sb = sb' := congrArg Prod.snd (Option.some.inj h)
    exact ⟨hwf, iff_of_true hc fun _ => rfl⟩
  | cons m0 ms =>
    obtain hmb | ⟨rs, b, n, hmb⟩ := hwf.cases
    · obtain ⟨hzero, hlast, htail⟩ := hc.of_nil hmb
      rw [sbappend, hlast] at h
      obtain ⟨hwf', hcount', htail', -, hlast'⟩ :=
        compress_empty h hmb hzero htail (List.nodup_append'.mp hfresh).2.1
      refine ⟨hwf', iff_of_true (consistent_iff.mpr ⟨hcount', hlast' rfl, htail'⟩) fun hany => ?_⟩
      rw [hmb] at hany
      cases hany
    · obtain ⟨m, t, hr⟩ : ∃ m t, b ++ [n] = m :: t := by
        cases b with
        | nil => exact ⟨n, [], rfl⟩
        | cons m t => exact ⟨m, t ++ [n], rfl⟩
      have hlast : sb.lastrecord = some m.id := by
        rw [hc.lastrecord, endRecord_concat hmb, hr]
        rfl
      have hrecord : sb.record m.id = some (b ++ [n]) := by
        rw [hr]
        exact record_last (hr ▸ hmb) hwf.nodup
      have hget : sb.mb.getLast?.getD [] = b ++ [n] := by
        rw [hmb, List.getLast?_concat]
        rfl
      rw [sbappend, hlast] at h
      change (sb.record m.id).bind _ = _ at h
      rw [hrecord, Option.bind_some] at h
      rw [hget]
      by_cases hany : (b ++ [n]).any Mbuf.eor = true
      · rw [if_pos hany] at h
        obtain ⟨hwf', hiff⟩ := sbappendrecord_spec hwf hc hfresh h
        exact ⟨hwf', hiff.trans ⟨fun hs _ => hs, fun hs => hs hany⟩⟩
      · rw [if_neg hany, List.getLast?_concat, Option.map_some] at h
        obtain ⟨hwf', hc', -⟩ := compress_end hwf hc hmb hfresh h
        exact ⟨hwf', iff_of_true hc' fun he => absurd he hany⟩

/-- Two records do not start at the same mbuf, so a buffer that begins with its last
record has no other. -/
theorem length_le_one (hwf : Wf sb) (hc : Consistent sb) (hfirst : sb.first = sb.lastrecord) :
    sb.mb.length ≤ 1 := by
  obtain hmb | ⟨rs, b, n, hmb⟩ := hwf.cases
  · rw [hmb]
    exact Nat.zero_le 1
  · cases rs with
    | nil =>
      rw [hmb]
      exact le_rfl
    | cons r rs =>
      exfalso
      obtain ⟨m, t, hr⟩ : ∃ m t, b ++ [n] = m :: t := by
        cases b with
        | nil => exact ⟨n, [], rfl⟩
        | cons m t => exact ⟨m, t ++ [n], rfl⟩
      have hnd := hwf.nodup
      rw [hr] at hmb
      rw [Sockbuf.ids, hmb] at hnd
      refine head_ne_of_nodup hnd r List.mem_cons_self ?_
      rw [hc.lastrecord, endRecord_concat hmb, Sockbuf.first, hmb] at hfirst
      exact hfirst

theorem endRecord_eq_first (h : sb.mb.length ≤ 1) : sb.endRecord = sb.first := by
  rw [Sockbuf.endRecord, Sockbuf.first]
  match hmb : sb.mb, h with
  | [], _ => rfl
  | [r], _ => rfl

theorem sbappendstream_spec (hwf : Wf sb) (hc : Consistent sb)
    (hfresh : (sb.ids ++ chain.map Mbuf.id).Nodup)
    (h : sbappendstream mem sb chain = some (mem', sb')) :
    Wf sb' ∧ Consistent sb' ∧ sb'.mb.length ≤ 1 := by
  rw [sbappendstream] at h
  by_cases hfirst : sb.first = sb.lastrecord
  · rw [if_pos hfirst] at h
    obtain ⟨⟨mem₁, sb₁⟩, hcomp, he⟩ := Option.map_eq_some_iff.mp h
    obtain rfl : ({ sb₁ with lastrecord := sb₁.first } : Sockbuf) = sb' := congrArg Prod.snd he
    -- whatever `sb_lastrecord` has become, it is set to the only record
    have hfinish : Wf sb₁ → sb₁.counters = charges sb₁.mb.flatten → sb₁.mbtail = sb₁.endMbuf →
        sb₁.mb.length ≤ 1 → Wf { sb₁ with lastrecord := sb₁.first }
          ∧ Consistent { sb₁ with lastrecord := sb₁.first } ∧ sb₁.mb.length ≤ 1 := by
      intro hwf₁ hcount htail hlen
      exact ⟨⟨hwf₁.nonempty, hwf₁.nodup⟩,
        consistent_iff.mpr ⟨hcount, (endRecord_eq_first hlen).symm, htail⟩, hlen⟩
    obtain hmb | ⟨rs, b, n, hmb⟩ := hwf.cases
    · obtain ⟨hzero, -, htail⟩ := hc.of_nil hmb
      rw [htail] at hcomp
      obtain ⟨hwf₁, hcount₁, htail₁, hlen₁, -⟩ :=
        compress_empty hcomp hmb hzero htail (List.nodup_append'.mp hfresh).2.1
      exact hfinish hwf₁ hcount₁ htail₁ hlen₁
    · rw [hc.mbtail, endMbuf_concat hmb] at hcomp
      obtain ⟨hwf₁, hc₁, hlen₁⟩ := compress_end hwf hc hmb hfresh hcomp
      refine hfinish hwf₁ (consistent_iff.mp hc₁).1 hc₁.mbtail ?_
      rw [hlen₁]
      exact length_le_one hwf hc hfirst
  · rw [if_neg hfirst] at h
    cases h

theorem foldl_sballoc (r : List Mbuf) : ∀ sb : Sockbuf,
    (r.foldl sballoc sb).counters = sb.counters + charges r
      ∧ (r.foldl sballoc sb).mb = sb.mb ∧ (r.foldl sballoc sb).lastrecord = sb.lastrecord := by
  induction r with
  | nil =>
    intro sb
    exact ⟨rfl, rfl, rfl⟩
  | cons m r ih =>
    intro sb
    obtain ⟨hcount, hmb, hlast⟩ := ih (sballoc sb m)
    refine ⟨?_, hmb, hlast⟩
    rw [List.foldl_cons, hcount, counters_sballoc, charges_cons, add_assoc]

/-- A record linked as a whole, with `sb_mbtail` set to its last mbuf. -/
theorem link_spec {r : List Mbuf} {sb₁ : Sockbuf}
    (h : sblinkrecord (r.foldl sballoc sb) r = some sb₁) (hne : r ≠ []) (hwf : Wf sb)
    (hc : Consistent sb) (hfresh : (sb.ids ++ r.map Mbuf.id).Nodup) :
    Wf { sb₁ with mbtail := r.getLast?.map Mbuf.id }
      ∧ Consistent { sb₁ with mbtail := r.getLast?.map Mbuf.id } := by
  obtain ⟨hcount, hmb, hlast⟩ := foldl_sballoc r sb
  have hids : (r.foldl sballoc sb).ids = sb.ids := congrArg (fun mb => mb.flatten.map Mbuf.id) hmb
  have hend : (r.foldl sballoc sb).lastrecord = (r.foldl sballoc sb).endRecord := by
    rw [hlast, hc.lastrecord, Sockbuf.endRecord, Sockbuf.endRecord, hmb]
  rw [sblinkrecord_spec _ (hmb ▸ hwf.nonempty) (hids ▸ hwf.nodup) hend r] at h
  obtain rfl := Option.some.inj h
  refine ⟨⟨?_, ?_⟩, consistent_iff.mpr ⟨?_, ?_, ?_⟩⟩
  · rw [hmb, List.mem_append, List.mem_singleton, not_or]
    exact ⟨hwf.nonempty, Ne.symm hne⟩
  · change (((r.foldl sballoc sb).mb ++ [r]).flatten.map Mbuf.id).Nodup
    rw [hmb, List.flatten_append, List.flatten_cons, List.flatten_nil, List.append_nil,
      List.map_append]
    exact hfresh
  · change (r.foldl sballoc sb).counters = charges ((r.foldl sballoc sb).mb ++ [r]).flatten
    rw [hcount, hmb, (consistent_iff.mp hc).1, List.flatten_append, List.flatten_cons,
      List.flatten_nil, List.append_nil, charges_append]
  · exact (endRecord_concat rfl).symm
  · change _ = (((r.foldl sballoc sb).mb ++ [r]).getLast?.bind List.getLast?).map Mbuf.id
    rw [List.getLast?_concat, Option.bind_some]

theorem sbappendaddr_spec {asa : List UInt8} {alloc : Option Nat} {m0 control : List Mbuf}
    {ok : Bool} (hwf : Wf sb) (hc : Consistent sb)
    (hfresh : (sb.ids ++ (alloc.toList ++ (control ++ m0).map Mbuf.id)).Nodup)
    (h : sbappendaddr mem sb asa alloc m0 control = some (ok, mem', sb')) :
    Wf sb' ∧ Consistent sb' := by
  unfold sbappendaddr at h
  split at h
  · cases h
  · split at h
    · cases h
      exact ⟨hwf, hc⟩
    · split at h
      · cases h
        exact ⟨hwf, hc⟩
      · cases alloc with
        | none =>
          cases h
          exact ⟨hwf, hc⟩
        | some id =>
          obtain ⟨sb₁, hlink, he⟩ := Option.map_eq_some_iff.mp h
          cases he
          exact link_spec hlink (List.cons_ne_nil _ _) hwf hc hfresh

theorem sbappendcontrol_spec {m0 control : List Mbuf} {ok : Bool} (hwf : Wf sb)
    (hc : Consistent sb) (hfresh : (sb.ids ++ (control ++ m0).map Mbuf.id).Nodup)
    (h : sbappendcontrol sb m0 control = some (ok, sb')) : Wf sb' ∧ Consistent sb' := by
  rw [sbappendcontrol] at h
  split at h
  · cases h
  · rename_i hne
    split at h
    · cases h
      exact ⟨hwf, hc⟩
    · obtain ⟨sb₁, hlink, he⟩ := Option.map_eq_some_iff.mp h
      cases he
      exact link_spec hlink (List.append_ne_nil_of_left_ne_nil hne m0) hwf hc hfresh

/-! ## Dropping -/

theorem getLast?_of_suffix {l l' : List Nat} (h : l <:+ l') (hne : l ≠ []) :
    l.getLast? = l'.getLast? := by
  obtain ⟨t, rfl⟩ := h
  obtain ⟨x, hx⟩ := Option.ne_none_iff_exists'.mp
    (fun hnone => hne (List.getLast?_eq_none_iff.mp hnone))
  rw [List.getLast?_append, hx, Option.some_or]

/-- Take records off the front, and mbufs off the front of the first that is left. The end
of the buffer is where it was. -/
theorem endMbuf_rest {pre next mb : List (List Mbuf)} {r m : List Mbuf} {sb₁ : Sockbuf}
    (hmb : sb.mb = pre ++ r :: next) (hsuf : m.map Mbuf.id <:+ r.map Mbuf.id)
    (hmb₁ : sb₁.mb = mb) (hrest : mb = if m = [] then next else m :: next) (hne : mb ≠ []) :
    sb₁.endMbuf = sb.endMbuf ∧ (mb.length ≠ 1 → sb₁.endRecord = sb.endRecord) := by
  obtain hnil | ⟨ns, r', hconcat⟩ := next.eq_nil_or_concat
  · rw [hnil] at hmb hrest
    have hm : m ≠ [] := by
      intro hm
      rw [if_pos hm] at hrest
      exact hne hrest
    rw [if_neg hm] at hrest
    refine ⟨?_, fun hlen => absurd (by rw [hrest]; rfl) hlen⟩
    have hids : (m.map Mbuf.id) ≠ [] := by
      rw [Ne, List.map_eq_nil_iff]
      exact hm
    have hlast := getLast?_of_suffix hsuf hids
    rw [List.getLast?_map, List.getLast?_map] at hlast
    rw [Sockbuf.endMbuf, Sockbuf.endMbuf, hmb₁, hrest, hmb, List.getLast?_concat,
      List.getLast?_singleton, Option.bind_some, Option.bind_some, hlast]
  · rw [List.concat_eq_append] at hconcat
    have hl₁ : sb₁.mb.getLast? = some r' := by
      rw [hmb₁, hrest, hconcat]
      split
      · exact List.getLast?_concat
      · rw [← List.cons_append, List.getLast?_concat]
    have hl : sb.mb.getLast? = some r' := by
      rw [hmb, hconcat, ← List.cons_append, ← List.append_assoc, List.getLast?_concat]
    rw [Sockbuf.endMbuf, Sockbuf.endMbuf, Sockbuf.endRecord, Sockbuf.endRecord, hl₁, hl]
    exact ⟨rfl, fun _ => rfl⟩

theorem wf_of_rest {pre next : List (List Mbuf)} {r m : List Mbuf} {sb₁ : Sockbuf} (hwf : Wf sb)
    (hmb : sb.mb = pre ++ r :: next) (hsuf : m.map Mbuf.id <:+ r.map Mbuf.id)
    (hmb₁ : sb₁.mb = if m = [] then next else m :: next) : Wf sb₁ := by
  have hnext : [] ∉ next := by
    have hne := hwf.nonempty
    rw [hmb, List.mem_append, not_or, List.mem_cons, not_or] at hne
    exact hne.2.2
  have hids : sb₁.ids = m.map Mbuf.id ++ next.flatten.map Mbuf.id := by
    rw [Sockbuf.ids, hmb₁]
    by_cases hm : m = []
    · rw [if_pos hm, hm]
      rfl
    · rw [if_neg hm, List.flatten_cons, List.map_append]
  refine ⟨?_, ?_⟩
  · rw [hmb₁]
    by_cases hm : m = []
    · rw [if_pos hm]
      exact hnext
    · rw [if_neg hm, List.mem_cons, not_or]
      exact ⟨Ne.symm hm, hnext⟩
  · have hnd := hwf.nodup
    rw [Sockbuf.ids, hmb, List.flatten_append, List.flatten_cons, List.map_append,
      List.map_append] at hnd
    rw [hids]
    exact hnd.sublist ((hsuf.sublist.append_right _).trans (List.sublist_append_right _ _))

/-- The end of `sbdrop` leaves the counters and the lock. -/
theorem sbdropEnd_frame (m : List Mbuf) (next : List (List Mbuf)) (sb : Sockbuf) :
    (sbdropEnd m next sb).mb = (if m = [] then next else m :: next)
      ∧ (sbdropEnd m next sb).counters = sb.counters
      ∧ (sbdropEnd m next sb).lock = sb.lock := by
  unfold sbdropEnd sbEmptyFixup
  generalize (if m = [] then next else m :: next) = mb
  by_cases hlen : mb.length = 1
  · rw [if_pos hlen]
    exact ⟨rfl, rfl, rfl⟩
  · rw [if_neg hlen]
    split <;> exact ⟨rfl, rfl, rfl⟩

/-- The end of `sbdrop` puts the pointers right: both to nothing in an empty buffer,
`sb_lastrecord` to a record that is alone, and otherwise they are right as they were. -/
theorem sbdropEnd_spec {pre next : List (List Mbuf)} {r m : List Mbuf} {sb₀ : Sockbuf}
    (hwf : Wf sb) (hc : Consistent sb) (hmb : sb.mb = pre ++ r :: next)
    (hsuf : m.map Mbuf.id <:+ r.map Mbuf.id) (hre : Recounts sb sb₀)
    (hcount : sb₀.counters = charges m + charges next.flatten) :
    Wf (sbdropEnd m next sb₀) ∧ Consistent (sbdropEnd m next sb₀) := by
  obtain ⟨hmb', hcount', -⟩ := sbdropEnd_frame m next sb₀
  refine ⟨wf_of_rest hwf hmb hsuf hmb', consistent_iff.mpr ⟨?_, ?_⟩⟩
  · rw [hcount', hcount, hmb']
    by_cases hm : m = []
    · rw [if_pos hm, hm, charges_nil, zero_add]
    · rw [if_neg hm, List.flatten_cons, charges_append]
  · generalize hrest : (if m = [] then next else m :: next) = mb at hmb'
    by_cases hne : mb = []
    · have hfix : sbdropEnd m next sb₀
          = { sb₀ with mb := [], mbtail := none, lastrecord := none } := by
        unfold sbdropEnd sbEmptyFixup
        simp only [hrest, hne]
        rfl
      rw [hfix]
      exact ⟨rfl, rfl⟩
    · obtain ⟨hend, hrec⟩ := endMbuf_rest hmb hsuf hmb' hrest.symm hne
      by_cases hlen : mb.length = 1
      · have hfix : sbdropEnd m next sb₀ = { sb₀ with
            mb := mb, lastrecord := ({ sb₀ with mb := mb } : Sockbuf).first } := by
          unfold sbdropEnd
          simp only [hrest, hlen, if_true]
        refine ⟨?_, ?_⟩
        · rw [endRecord_eq_first (by rw [hmb', hlen]), hfix]
          rfl
        · rw [hend, ← hc.mbtail, hfix]
          exact hre.mbtail
      · have hfix : sbdropEnd m next sb₀ = { sb₀ with mb := mb } := by
          unfold sbdropEnd sbEmptyFixup
          simp only [hrest, hlen, hne, if_false]
        refine ⟨?_, ?_⟩
        · rw [hrec hlen, ← hc.lastrecord, hfix]
          exact hre.lastrecord
        · rw [hend, ← hc.mbtail, hfix]
          exact hre.mbtail

/-- `SB_EMPTY_FIXUP` of a buffer that has become empty. -/
theorem sbEmptyFixup_nil (sb : Sockbuf) (hmb : sb.mb = []) (hzero : sb.counters = 0) :
    Wf (sbEmptyFixup sb) ∧ Consistent (sbEmptyFixup sb) := by
  obtain ⟨mb, cc, datacc, mbcnt, hiwat, mbmax, lock, lastrecord, mbtail⟩ := sb
  subst hmb
  exact ⟨⟨List.not_mem_nil, List.nodup_nil⟩, consistent_iff.mpr ⟨hzero, rfl, rfl⟩⟩

theorem sbdrop_consistent {len : Int} (hwf : Wf sb) (hc : Consistent sb)
    (h : sbdrop mem sb len = some (mem', sb')) : Wf sb' ∧ Consistent sb' := by
  obtain ⟨pre, r, next, m, sb₀, hrec, hsuf, hre, hcount, rfl⟩ :=
    sbdrop_spec h (consistent_iff.mp hc).1
  cases hmb : sb.mb with
  | nil =>
    -- the front record of an empty buffer is empty, and so is what is left of it
    rw [hmb] at hrec
    obtain ⟨rfl, rfl⟩ : r = [] ∧ next = [] := by
      cases pre with
      | nil =>
        injection hrec with h₁ h₂
        exact ⟨h₁.symm, h₂.symm⟩
      | cons _ pre => simp at hrec
    obtain rfl : m = [] := by
      rw [List.map_nil, List.suffix_nil, List.map_eq_nil_iff] at hsuf
      exact hsuf
    exact sbEmptyFixup_nil { sb₀ with mb := [] } rfl hcount
  | cons r₀ rs =>
    rw [hmb] at hrec
    exact sbdropEnd_spec hwf hc (hmb.trans hrec) hsuf hre hcount

theorem foldl_sbfree (r : List Mbuf) : ∀ {sb : Sockbuf} {x : Nat × Nat × Nat},
    sb.counters = charges r + x →
      (r.foldl sbfree sb).counters = x ∧ (r.foldl sbfree sb).lastrecord = sb.lastrecord
        ∧ (r.foldl sbfree sb).mbtail = sb.mbtail := by
  induction r with
  | nil =>
    intro sb x hx
    rw [charges_nil, zero_add] at hx
    exact ⟨hx, rfl, rfl⟩
  | cons m r ih =>
    intro sb x hx
    exact ih (counters_tail hx)

theorem sbdroprecord_consistent (hwf : Wf sb) (hc : Consistent sb) :
    Wf (sbdroprecord mem sb).2 ∧ Consistent (sbdroprecord mem sb).2 := by
  cases hmb : sb.mb with
  | nil =>
    have hres : (sbdroprecord mem sb).2 = sbEmptyFixup sb := by
      unfold sbdroprecord
      rw [hmb]
    rw [hres]
    exact sbEmptyFixup_nil sb hmb (hc.of_nil hmb).1
  | cons r rs =>
    have hcount := (consistent_iff.mp hc).1
    rw [hmb, List.flatten_cons, charges_append] at hcount
    obtain ⟨hcount', hlast', htail'⟩ := foldl_sbfree r hcount
    have hres : (sbdroprecord mem sb).2 = sbEmptyFixup { r.foldl sbfree sb with mb := rs } := by
      rw [sbdroprecord, hmb]
    rw [hres]
    by_cases hne : rs = []
    · rw [hne] at hcount' ⊢
      exact sbEmptyFixup_nil { r.foldl sbfree sb with mb := [] } rfl hcount'
    · have hwf' : Wf { r.foldl sbfree sb with mb := rs } :=
        wf_of_rest (m := []) hwf (show sb.mb = [] ++ r :: rs from hmb) (List.nil_suffix) rfl
      have hlast : sb.mb.getLast? = rs.getLast? := by
        obtain ⟨l, hl⟩ := Option.ne_none_iff_exists'.mp
          (fun hnone => hne (List.getLast?_eq_none_iff.mp hnone))
        rw [hmb, List.getLast?_cons, hl]
        rfl
      rw [sbEmptyFixup, if_neg hne]
      refine ⟨hwf', consistent_iff.mpr ⟨hcount', ?_, ?_⟩⟩
      · change (r.foldl sbfree sb).lastrecord = (rs.getLast?.bind List.head?).map Mbuf.id
        rw [hlast', hc.lastrecord, Sockbuf.endRecord, hlast]
      · change (r.foldl sbfree sb).mbtail = (rs.getLast?.bind List.getLast?).map Mbuf.id
        rw [htail', hc.mbtail, Sockbuf.endMbuf, hlast]

theorem sbflushLoop_mbcnt (fuel : Nat) : ∀ {mem mem' : Mem} {sb sb' : Sockbuf},
    sbflushLoop fuel mem sb = some (mem', sb') → sb'.mbcnt = 0 := by
  induction fuel with
  | zero =>
    intro mem mem' sb sb' h
    rw [sbflushLoop] at h
    split at h
    · cases h
      assumption
    · cases h
  | succ fuel ih =>
    intro mem mem' sb sb' h
    rw [sbflushLoop] at h
    split at h
    · cases h
      assumption
    · obtain ⟨r, -, h⟩ := Option.bind_eq_some_iff.mp h
      exact ih h

/-- What `sbflush` asserts at its end is that the buffer is consistent, and empty. -/
theorem sbflush_consistent {fuel : Nat} (h : sbflush fuel mem sb = some (mem', sb')) :
    Wf sb' ∧ Consistent sb' ∧ sb'.mb = [] := by
  rw [sbflush] at h
  split at h
  · cases h
  · obtain ⟨⟨mem₁, sb₁⟩, hloop, h⟩ := Option.bind_eq_some_iff.mp h
    split at h
    · rename_i hassert
      obtain ⟨hcc, hdatacc, hmb, htail, hlast⟩ := hassert
      cases h
      have hcnt := sbflushLoop_mbcnt fuel hloop
      refine ⟨⟨by rw [hmb]; exact List.not_mem_nil, by rw [Sockbuf.ids, hmb]; exact List.nodup_nil⟩,
        ⟨?_, ?_, ?_, ?_, ?_⟩, hmb⟩
      · rw [hcc, hmb]
        rfl
      · rw [hdatacc, hmb]
        rfl
      · rw [hcnt, hmb]
        rfl
      · rw [hlast, Sockbuf.endRecord, hmb]
        rfl
      · rw [htail, Sockbuf.endMbuf, hmb]
        rfl
    · cases h

/-! ## Sequences of calls -/

/-- A call on a consistent buffer keeps it consistent just when it keeps the tail. -/
theorem call_spec {w : Mem × Call} (hwf : Wf sb) (hc : Consistent sb) (hfresh : Fresh sb w.2)
    (h : call sb w = some sb') : Wf sb' ∧ (Consistent sb' ↔ KeepsTail w.1 sb w.2) := by
  obtain ⟨mem, c⟩ := w
  cases c with
  | append m =>
    obtain ⟨⟨mem', sb'⟩, hop, rfl⟩ := Option.map_eq_some_iff.mp h
    exact sbappend_spec hwf hc hfresh hop
  | appendstream m =>
    obtain ⟨⟨mem', sb'⟩, hop, rfl⟩ := Option.map_eq_some_iff.mp h
    obtain ⟨hwf', hc', -⟩ := sbappendstream_spec hwf hc hfresh hop
    exact ⟨hwf', iff_of_true hc' trivial⟩
  | appendrecord m0 =>
    obtain ⟨⟨mem', sb'⟩, hop, rfl⟩ := Option.map_eq_some_iff.mp h
    exact sbappendrecord_spec hwf hc hfresh hop
  | insertoob m0 =>
    obtain ⟨⟨mem', sb'⟩, hop, rfl⟩ := Option.map_eq_some_iff.mp h
    exact sbinsertoob_spec hwf hc hfresh hop
  | appendaddr asa alloc m0 control =>
    obtain ⟨⟨ok, mem', sb'⟩, hop, rfl⟩ := Option.map_eq_some_iff.mp h
    obtain ⟨hwf', hc'⟩ := sbappendaddr_spec hwf hc hfresh hop
    exact ⟨hwf', iff_of_true hc' trivial⟩
  | appendcontrol m0 control =>
    obtain ⟨⟨ok, sb'⟩, hop, rfl⟩ := Option.map_eq_some_iff.mp h
    obtain ⟨hwf', hc'⟩ := sbappendcontrol_spec hwf hc hfresh hop
    exact ⟨hwf', iff_of_true hc' trivial⟩
  | drop len =>
    obtain ⟨⟨mem', sb'⟩, hop, rfl⟩ := Option.map_eq_some_iff.mp h
    obtain ⟨hwf', hc'⟩ := sbdrop_consistent hwf hc hop
    exact ⟨hwf', iff_of_true hc' trivial⟩
  | droprecord =>
    obtain rfl := Option.some.inj h
    obtain ⟨hwf', hc'⟩ := sbdroprecord_consistent hwf hc
    exact ⟨hwf', iff_of_true hc' trivial⟩
  | flush fuel =>
    obtain ⟨⟨mem', sb'⟩, hop, rfl⟩ := Option.map_eq_some_iff.mp h
    obtain ⟨hwf', hc', -⟩ := sbflush_consistent hop
    exact ⟨hwf', iff_of_true hc' trivial⟩

/-- However the calls are mixed, as long as each of them keeps the tail the buffer is
consistent after every one of them; and the first that does not keep it breaks it. -/
theorem sockbuf_consistent {hiwat mbmax : Nat}
    (h : Runs call (fun sb w => Fresh sb w.2 ∧ KeepsTail w.1 sb w.2) (.empty hiwat mbmax) sb) :
    Consistent sb ∧ ∀ w sb', Fresh sb w.2 → call sb w = some sb' →
      (Consistent sb' ↔ KeepsTail w.1 sb w.2) := by
  have hstep : ∀ (sb : Sockbuf) (w : Mem × Call) (sb' : Sockbuf),
      (Fresh sb w.2 ∧ KeepsTail w.1 sb w.2) → call sb w = some sb' →
      Wf sb ∧ Consistent sb → Wf sb' ∧ Consistent sb' := by
    rintro sb w sb' ⟨hfresh, hkeeps⟩ hcall ⟨hwf, hc⟩
    obtain ⟨hwf', hiff⟩ := call_spec hwf hc hfresh hcall
    exact ⟨hwf', hiff.mpr hkeeps⟩
  have hend := Runs.invariant hstep h
  obtain ⟨hwf, hc⟩ := hend ⟨wf_empty hiwat mbmax, consistent_empty hiwat mbmax⟩
  exact ⟨hc, fun w sb' hfresh hcall => (call_spec hwf hc hfresh hcall).2⟩

/-- An mbuf of data in its own storage, for the runs below. -/
def dataMbuf (id len : Nat) : Mbuf := ⟨id, .data, len, 0, false, none, none⟩

def zeroMem : Mem := ⟨fun _ _ => 0, fun _ => 1⟩

/-- A record of two mbufs that do not fit into one. -/
theorem sockbuf_consistent_pair : ∃ sb,
    Runs call (fun sb w => Fresh sb w.2 ∧ KeepsTail w.1 sb w.2) (.empty 16384 65536) sb
      ∧ sb.mbtail = some 2 ∧ Consistent sb := by
  have hrun : Runs call (fun sb w => Fresh sb w.2 ∧ KeepsTail w.1 sb w.2) (.empty 16384 65536)
      ⟨[[dataMbuf 1 200, dataMbuf 2 100]], 300, 300, 512, 16384, 65536, false, some 1, some 2⟩ := by
    refine .single ⟨(zeroMem, .appendrecord [dataMbuf 1 200, dataMbuf 2 100]), ⟨?_, ?_⟩, ?_⟩
    · show List.Nodup [1, 2]
      decide
    · show swallowed zeroMem _ = false
      decide
    · rfl
  exact ⟨_, hrun, rfl, (sockbuf_consistent hrun).1⟩

/-- A record of one mbuf leaves `sb_mbtail` where it was, and the next stream append takes
the buffer for empty: the record is lost, and the counters go on counting it. -/
theorem record_loses_tail : ∃ sb sb',
    Runs call (fun sb w => Fresh sb w.2) (.empty 16384 65536) sb
      ∧ sb.mb = [[dataMbuf 1 100]] ∧ sb.mbtail = none ∧ ¬ Consistent sb
      ∧ Runs call (fun sb w => Fresh sb w.2) (.empty 16384 65536) sb'
      ∧ sb'.mb = [[dataMbuf 2 50]] ∧ sb'.cc = 150 ∧ ¬ Consistent sb' := by
  have hone : Runs call (fun sb w => Fresh sb w.2) (.empty 16384 65536)
      ⟨[[dataMbuf 1 100]], 100, 100, 256, 16384, 65536, false, some 1, none⟩ := by
    refine .single ⟨(zeroMem, .appendrecord [dataMbuf 1 100]), ?_, rfl⟩
    show List.Nodup [1]
    decide
  have htwo : Runs call (fun sb w => Fresh sb w.2) (.empty 16384 65536)
      ⟨[[dataMbuf 2 50]], 150, 150, 512, 16384, 65536, false, some 2, some 2⟩ := by
    refine hone.tail ⟨(zeroMem, .appendstream [dataMbuf 2 50]), ?_, rfl⟩
    show List.Nodup [1, 2]
    decide
  refine ⟨_, _, hone, rfl, rfl, fun hc => ?_, htwo, rfl, rfl, fun hc => ?_⟩
  · cases hc.mbtail
  · cases hc.cc

end Obsd.Sb
