import Obsd.Sockbuf

/-!
# What the operations on a socket buffer do

`sbcompress` works its way down a chain, and every mbuf of it is discarded,
copied or linked (`Compresses`). From that come what it leaves of `*n`, the
mbufs it links, the counters and the two pointers. `sbdrop` walks from the
other end; the addresses it leaves are the end of those that were there.
-/

namespace Obsd.Sb

variable {mem mem' : Mem} {sb sb' : Sockbuf} {m n : Mbuf} {ms chain : List Mbuf}

/-! ## Counters -/

/-- What an mbuf adds to `sb_cc`, `sb_datacc` and `sb_mbcnt`. -/
def Mbuf.charge (m : Mbuf) : Nat × Nat × Nat := (m.len, m.datalen, m.space)

def charges (ms : List Mbuf) : Nat × Nat × Nat := (ms.map Mbuf.charge).sum

def Sockbuf.counters (sb : Sockbuf) : Nat × Nat × Nat := (sb.cc, sb.datacc, sb.mbcnt)

@[simp] theorem charges_nil : charges [] = 0 := rfl

@[simp] theorem charges_cons (m : Mbuf) (ms : List Mbuf) :
    charges (m :: ms) = m.charge + charges ms := by
  rw [charges, List.map_cons, List.sum_cons, charges]

@[simp] theorem charges_append (ms ns : List Mbuf) :
    charges (ms ++ ns) = charges ms + charges ns := by
  rw [charges, List.map_append, List.sum_append, charges, charges]

theorem charges_eq (ms : List Mbuf) :
    charges ms = ((ms.map Mbuf.len).sum, (ms.map Mbuf.datalen).sum, (ms.map Mbuf.space).sum) := by
  induction ms with
  | nil => rfl
  | cons m ms ih =>
    rw [charges_cons, ih]
    rfl

theorem counters_sballoc (sb : Sockbuf) (m : Mbuf) :
    (sballoc sb m).counters = sb.counters + m.charge := rfl

theorem counters_sbfree {x : Nat × Nat × Nat} (h : sb.counters = m.charge + x) :
    (sbfree sb m).counters = x := by
  obtain ⟨a, b, c⟩ := x
  injection h with h₁ h₂
  injection h₂ with h₂ h₃
  change sb.cc = m.len + a at h₁
  change sb.datacc = m.datalen + b at h₂
  change sb.mbcnt = m.space + c at h₃
  change (sb.cc - m.len, sb.datacc - m.datalen, sb.mbcnt - m.space) = (a, b, c)
  rw [h₁, h₂, h₃, Nat.add_sub_cancel_left, Nat.add_sub_cancel_left, Nat.add_sub_cancel_left]

/-- Dropping the first `k` bytes of an mbuf that has more. -/
theorem counters_shrink {k : Nat} {x : Nat × Nat × Nat} (hk : k ≤ m.len)
    (h : sb.counters = m.charge + x) :
    ({ sb with
        cc := sb.cc - k
        datacc := if m.type ≠ .control ∧ m.type ≠ .soname then sb.datacc - k else sb.datacc } :
      Sockbuf).counters
      = ({ m with len := m.len - k, data := m.data + k } : Mbuf).charge + x := by
  obtain ⟨a, b, c⟩ := x
  injection h with h₁ h₂
  injection h₂ with h₂ h₃
  change sb.cc = m.len + a at h₁
  change sb.datacc = m.datalen + b at h₂
  refine Prod.ext ?_ (Prod.ext ?_ h₃)
  · change sb.cc - k = m.len - k + a
    rw [h₁, Nat.sub_add_comm hk]
  · change (if m.type ≠ .control ∧ m.type ≠ .soname then sb.datacc - k else sb.datacc)
      = (if m.type ≠ .control ∧ m.type ≠ .soname then m.len - k else 0) + b
    rw [Mbuf.datalen] at h₂
    split at h₂
    · rename_i hty
      rw [if_pos hty, if_pos hty, h₂, Nat.sub_add_comm hk]
    · rename_i hty
      rw [if_neg hty, if_neg hty, h₂]

theorem charge_grow (hty : n.type = m.type) :
    ({ n with len := n.len + m.len } : Mbuf).charge = n.charge + (m.len, m.datalen, 0) := by
  refine Prod.ext rfl (Prod.ext ?_ rfl)
  change (if n.type ≠ .control ∧ n.type ≠ .soname then n.len + m.len else 0)
    = n.datalen + m.datalen
  rw [Mbuf.datalen, Mbuf.datalen, hty]
  split <;> rfl

/-! ## sbcompress -/

/-- The lastrecord pointer follows the chain while its mbufs are discarded. -/
def Sockbuf.skip (sb : Sockbuf) (m : Mbuf) (ms : List Mbuf) : Sockbuf :=
  if sb.lastrecord = some m.id then { sb with lastrecord := ms.head?.map Mbuf.id } else sb

/-- The counters after `m` has been copied. -/
def Sockbuf.copied (sb : Sockbuf) (m : Mbuf) : Sockbuf :=
  { sb with cc := sb.cc + m.len, datacc := sb.datacc + m.datalen }

/-- A run of the loop of `sbcompress`, one constructor for each thing that can happen to
the next mbuf of the chain. -/
inductive Compresses : List Mbuf → Mem → Sockbuf → Bool → Option Mbuf → Compressed → Prop
  | nil (mem : Mem) (sb : Sockbuf) (eor : Bool) (n : Option Mbuf) :
      Compresses [] mem sb eor n ⟨mem, sb, n.map fun n => { n with eor := n.eor || eor }, []⟩
  | discard {mem : Mem} {sb : Sockbuf} {eor : Bool} {n : Option Mbuf} {m : Mbuf} {ms : List Mbuf}
      {r : Compressed} (hd : discards (eor || m.eor) n m ms = true)
      (h : Compresses ms (mem.mFree m) (sb.skip m ms) (eor || m.eor) n r) :
      Compresses (m :: ms) mem sb eor n r
  | copy {mem mem' : Mem} {sb : Sockbuf} {eor : Bool} {n m : Mbuf} {ms : List Mbuf}
      {r : Compressed} (hd : discards (eor || m.eor) (some n) m ms = false)
      (ha : absorbs mem m n = true) (hb : bcopy mem m n = some mem')
      (h : Compresses ms (mem'.mFree m) (sb.copied m) (eor || m.eor)
        (some { n with len := n.len + m.len }) r) :
      Compresses (m :: ms) mem sb eor (some n) r
  | link {mem : Mem} {sb : Sockbuf} {eor : Bool} {n : Option Mbuf} {m : Mbuf} {ms : List Mbuf}
      {r : Compressed} (hd : discards (eor || m.eor) n m ms = false)
      (ha : ∀ n' ∈ n, absorbs mem m n' = false)
      (h : Compresses ms mem (sballoc { sb with mbtail := some m.id } m) (eor || m.eor)
        (some { m with eor := false }) r) :
      Compresses (m :: ms) mem sb eor n { r with n := n, linked := r.n.toList ++ r.linked }

theorem compresses_of_eq (chain : List Mbuf) :
    ∀ {mem : Mem} {sb : Sockbuf} {eor : Bool} {n : Option Mbuf} {r : Compressed},
      sbcompressLoop chain mem sb eor n = some r → Compresses chain mem sb eor n r := by
  induction chain with
  | nil =>
    intro mem sb eor n r h
    rw [← Option.some.inj h]
    exact .nil mem sb eor n
  | cons m ms ih =>
    intro mem sb eor n r h
    rw [sbcompressLoop] at h
    by_cases hd : discards (eor || m.eor) n m ms = true
    · rw [if_pos hd] at h
      exact .discard hd (ih h)
    · rw [if_neg hd] at h
      rw [Bool.not_eq_true] at hd
      cases hf : n.filter (absorbs mem m) with
      | some n' =>
        rw [hf] at h
        obtain ⟨rfl, ha⟩ := Option.filter_eq_some_iff.mp hf
        obtain ⟨mem', hb, h⟩ := Option.bind_eq_some_iff.mp h
        exact .copy hd ha hb (ih h)
      | none =>
        rw [hf] at h
        obtain ⟨r', hr', rfl⟩ := Option.map_eq_some_iff.mp h
        refine .link hd ?_ (ih hr')
        intro n' hn'
        rw [hn'] at hf
        simpa using hf

section Compresses

variable {eor : Bool} {n : Option Mbuf} {r : Compressed}

theorem skip_mb (sb : Sockbuf) (m : Mbuf) (ms : List Mbuf) : (sb.skip m ms).mb = sb.mb := by
  rw [Sockbuf.skip]
  split <;> rfl

theorem skip_lock (sb : Sockbuf) (m : Mbuf) (ms : List Mbuf) : (sb.skip m ms).lock = sb.lock := by
  rw [Sockbuf.skip]
  split <;> rfl

theorem skip_mbtail (sb : Sockbuf) (m : Mbuf) (ms : List Mbuf) :
    (sb.skip m ms).mbtail = sb.mbtail := by
  rw [Sockbuf.skip]
  split <;> rfl

theorem skip_counters (sb : Sockbuf) (m : Mbuf) (ms : List Mbuf) :
    (sb.skip m ms).counters = sb.counters := by
  rw [Sockbuf.skip]
  split <;> rfl

/-- The records and the lock are not the loop's business. -/
theorem Compresses.frame (h : Compresses chain mem sb eor n r) :
    r.sb.mb = sb.mb ∧ r.sb.lock = sb.lock := by
  induction h with
  | nil => exact ⟨rfl, rfl⟩
  | discard _ _ ih => rwa [skip_mb, skip_lock] at ih
  | copy _ _ _ _ ih => exact ih
  | link _ _ _ ih => exact ih

/-- `n` stays the mbuf it was. -/
theorem Compresses.n_id (h : Compresses chain mem sb eor n r) :
    r.n.map Mbuf.id = n.map Mbuf.id := by
  induction h with
  | nil mem sb eor n => cases n <;> rfl
  | discard _ _ ih => exact ih
  | copy _ _ _ _ ih => exact ih
  | link _ _ _ _ => rfl

/-- The counters go up by what the mbufs in the buffer have grown. -/
theorem Compresses.counters (h : Compresses chain mem sb eor n r) :
    r.sb.counters + charges n.toList = sb.counters + charges (r.n.toList ++ r.linked) := by
  induction h with
  | nil mem sb eor n => cases n <;> rfl
  | @discard mem sb eor n m ms r _ _ ih => rwa [skip_counters] at ih
  | @copy mem mem' sb eor n m ms r _ ha _ _ ih =>
    have hty : n.type = m.type := by
      rw [absorbs, decide_eq_true_eq] at ha
      exact ha.2.2.2
    have hcopied : (sb.copied m).counters = sb.counters + (m.len, m.datalen, 0) := rfl
    simp only [Option.toList_some, charges_cons, charges_nil, add_zero] at ih ⊢
    rw [charge_grow hty, hcopied, ← add_assoc, add_right_comm sb.counters] at ih
    exact add_right_cancel ih
  | @link mem sb eor n m ms r _ _ _ ih =>
    have hm : ({ m with eor := false } : Mbuf).charge = m.charge := rfl
    have halloc : (sballoc { sb with mbtail := some m.id } m).counters
        = sb.counters + m.charge := rfl
    simp only [Option.toList_some, charges_cons, charges_nil, add_zero] at ih
    rw [halloc, hm, add_right_comm] at ih
    rw [add_right_cancel ih, charges_append n.toList, ← add_assoc, add_right_comm]

/-- Only mbufs of the chain are linked, in their order. -/
theorem Compresses.linked_sublist (h : Compresses chain mem sb eor n r) :
    (r.linked.map Mbuf.id).Sublist (chain.map Mbuf.id) := by
  induction h with
  | nil => exact List.Sublist.slnil
  | discard _ _ ih => exact ih.cons _
  | copy _ _ _ _ ih => exact ih.cons _
  | @link mem sb eor n m ms r _ _ h ih =>
    have hn := h.n_id
    obtain ⟨n', hn', hid⟩ := Option.map_eq_some_iff.mp hn
    rw [hn', Option.toList_some, List.singleton_append, List.map_cons, hid, List.map_cons]
    exact ih.cons_cons _

/-- `sb_mbtail` is the last mbuf linked, if any was. -/
theorem Compresses.mbtail (h : Compresses chain mem sb eor n r) :
    r.sb.mbtail = (r.linked.getLast?.map Mbuf.id).or sb.mbtail := by
  induction h with
  | nil => rfl
  | discard _ _ ih => rwa [skip_mbtail] at ih
  | copy _ _ _ _ ih => exact ih
  | @link mem sb eor n m ms r _ _ h ih =>
    obtain ⟨n', hn', hid⟩ := Option.map_eq_some_iff.mp h.n_id
    rw [ih, hn', Option.toList_some, List.singleton_append, List.getLast?_cons]
    cases r.linked.getLast? with
    | none => exact congrArg some hid.symm
    | some l => rfl

/-- `sb_lastrecord` stays, unless it is the chain itself. -/
theorem Compresses.lastrecord (h : Compresses chain mem sb eor n r)
    (hfresh : ∀ p ∈ sb.lastrecord, p ∉ chain.map Mbuf.id) : r.sb.lastrecord = sb.lastrecord := by
  induction h with
  | nil => rfl
  | @discard mem sb eor n m ms r _ _ ih =>
    have hne : sb.lastrecord ≠ some m.id := fun he => hfresh m.id he List.mem_cons_self
    rw [Sockbuf.skip, if_neg hne] at ih
    exact ih fun p hp hmem => hfresh p hp (List.mem_cons_of_mem _ hmem)
  | copy _ _ _ _ ih => exact ih fun p hp hmem => hfresh p hp (List.mem_cons_of_mem _ hmem)
  | link _ _ _ ih => exact ih fun p hp hmem => hfresh p hp (List.mem_cons_of_mem _ hmem)

/-- Into an empty buffer `sb_lastrecord` starts out at the chain, and ends at the first
mbuf that is linked. -/
theorem Compresses.lastrecord_none (h : Compresses chain mem sb eor none r)
    (hnd : (chain.map Mbuf.id).Nodup) (hlast : sb.lastrecord = chain.head?.map Mbuf.id) :
    r.sb.lastrecord = r.linked.head?.map Mbuf.id := by
  generalize hn : (none : Option Mbuf) = n at h
  induction h with
  | nil => exact hlast
  | @discard mem sb eor n m ms r _ _ ih =>
    have hm : sb.lastrecord = some m.id := hlast
    have hskip : (sb.skip m ms).lastrecord = ms.head?.map Mbuf.id := by
      rw [Sockbuf.skip, if_pos hm]
    exact ih (List.nodup_cons.mp hnd).2 hskip hn
  | copy => cases hn
  | @link mem sb eor n m ms r _ _ h _ =>
    obtain ⟨n', hn', hid⟩ := Option.map_eq_some_iff.mp h.n_id
    have hstay := h.lastrecord (fun p hp => by
      have hp : p = m.id := Option.some.inj (hp.symm.trans hlast)
      rw [hp]
      exact (List.nodup_cons.mp hnd).1)
    rw [hstay, hn']
    exact hlast.trans (congrArg some hid.symm)

end Compresses

/-- The whole chain is discarded or copied into `n`. -/
def swallows : List Mbuf → Mem → Bool → Mbuf → Bool
  | [], _, _, _ => true
  | m :: ms, mem, eor, n =>
    if discards (eor || m.eor) (some n) m ms then swallows ms (mem.mFree m) (eor || m.eor) n
    else if absorbs mem m n then
      swallows ms (mem.mFree m) (eor || m.eor) { n with len := n.len + m.len }
    else false

theorem mFree_refs (m : Mbuf) (h : mem.refs = mem'.refs) :
    (mem.mFree m).refs = (mem'.mFree m).refs := by
  rw [Mem.mFree, Mem.mFree]
  cases m.ext with
  | none => exact h
  | some e =>
    rw [h]

theorem swallows_refs (chain : List Mbuf) : ∀ {mem mem' : Mem} {eor : Bool} {n : Mbuf},
    mem.refs = mem'.refs → swallows chain mem eor n = swallows chain mem' eor n := by
  induction chain with
  | nil =>
    intro mem mem' eor n _
    rfl
  | cons m ms ih =>
    intro mem mem' eor n hrefs
    have hfree := mFree_refs m hrefs
    have habs : absorbs mem m n = absorbs mem' m n := by
      have hro : mReadonly mem n = mReadonly mem' n := by
        rw [mReadonly, mReadonly, hrefs]
      rw [absorbs, absorbs, mTrailingspace, mTrailingspace, hro]
    rw [swallows, swallows, habs, ih hfree, ih hfree]

theorem bcopy_refs (h : bcopy mem m n = some mem') : mem'.refs = mem.refs := by
  rw [bcopy] at h
  split at h
  · rw [← Option.some.inj h]
    rfl
  · cases h

/-- Nothing is linked just when the chain is swallowed. -/
theorem Compresses.linked_eq_nil_iff {eor : Bool} {r : Compressed} {n : Option Mbuf} {n₀ : Mbuf}
    (h : Compresses chain mem sb eor n r) (hn : n = some n₀) :
    r.linked = [] ↔ swallows chain mem eor n₀ = true := by
  induction h generalizing n₀ with
  | nil => exact ⟨fun _ => rfl, fun _ => rfl⟩
  | @discard mem sb eor n m ms r hd _ ih =>
    rw [hn] at hd
    rw [swallows, if_pos hd]
    exact ih hn
  | @copy mem mem' sb eor n m ms r hd ha hb _ ih =>
    obtain rfl : n = n₀ := Option.some.inj hn
    rw [swallows, if_neg (by rw [hd]; exact Bool.false_ne_true), if_pos ha, ih rfl]
    rw [swallows_refs ms (mFree_refs m (bcopy_refs hb))]
  | @link mem sb eor n m ms r hd ha h _ =>
    obtain ⟨n', hn', -⟩ := Option.map_eq_some_iff.mp h.n_id
    rw [hn] at hd
    rw [swallows, if_neg (by rw [hd]; exact Bool.false_ne_true),
      if_neg (by rw [ha n₀ hn]; exact Bool.false_ne_true)]
    constructor
    · intro hnil
      rw [hn'] at hnil
      cases hnil
    · intro hf
      cases hf

/-! ## Addresses -/

/-- The addresses of the mbufs in the buffer. -/
def Sockbuf.ids (sb : Sockbuf) : List Nat := sb.mb.flatten.map Mbuf.id

theorem find_of_mem {mb : List (List Mbuf)} {b after : List Mbuf} {front back : List (List Mbuf)}
    (hmb : mb = front ++ (b ++ n :: after) :: back) (hnd : (mb.flatten.map Mbuf.id).Nodup) :
    mb.flatten.find? (fun m => m.id = n.id) = some n := by
  rw [hmb] at hnd ⊢
  simp only [List.flatten_append, List.flatten_cons, List.append_assoc, List.cons_append,
    List.map_append, List.map_cons] at hnd ⊢
  rw [← List.append_assoc] at hnd ⊢
  have hbefore : ∀ m ∈ front.flatten ++ b, m.id ≠ n.id := by
    intro m hm he
    rw [← List.map_append] at hnd
    refine (List.disjoint_of_nodup_append hnd) (List.mem_map_of_mem hm) ?_
    rw [he]
    exact List.mem_cons_self
  rw [List.find?_append, List.find?_eq_none.mpr fun m hm => by simpa using hbefore m hm,
    Option.none_or, List.find?_cons_of_pos (by simp)]

theorem relink_of_notMem {linked : List Mbuf} (r : List Mbuf) (h : n.id ∉ r.map Mbuf.id) :
    relink n linked r = r := by
  induction r with
  | nil => rfl
  | cons m ms ih =>
    rw [List.map_cons, List.mem_cons, not_or] at h
    rw [relink, if_neg (Ne.symm h.1), ih h.2]

theorem relink_last {n' : Mbuf} {linked : List Mbuf} (b : List Mbuf) (hid : n'.id = n.id)
    (h : n.id ∉ b.map Mbuf.id) : relink n' linked (b ++ [n]) = b ++ n' :: linked := by
  induction b with
  | nil =>
    rw [List.nil_append, relink, if_pos hid.symm]
    by_cases hl : linked = []
    · rw [if_pos hl, hl]
      rfl
    · rw [if_neg hl]
      rfl
  | cons m ms ih =>
    rw [List.map_cons, List.mem_cons, not_or] at h
    rw [List.cons_append, relink, if_neg (by rw [hid]; exact Ne.symm h.1), ih h.2,
      List.cons_append]

/-- Behind the last mbuf of a record, `*n` is written back and the rest is linked. -/
theorem map_relink {n' : Mbuf} {b linked : List Mbuf} {front back : List (List Mbuf)}
    (hid : n'.id = n.id) (hnd : ((front ++ (b ++ [n]) :: back).flatten.map Mbuf.id).Nodup) :
    (front ++ (b ++ [n]) :: back).map (relink n' linked)
      = front ++ (b ++ n' :: linked) :: back := by
  simp only [List.flatten_append, List.flatten_cons, List.map_append, List.map_cons,
    List.map_nil] at hnd
  obtain ⟨hfb, hback, hne⟩ := List.nodup_append'.mp hnd
  obtain ⟨hbn, hb, hdis⟩ := List.nodup_append'.mp hback
  obtain ⟨-, -, hbdis⟩ := List.nodup_append'.mp hbn
  have hmem : n.id ∈ b.map Mbuf.id ++ [n.id] := List.mem_append_right _ List.mem_cons_self
  have hkeep : ∀ rs : List (List Mbuf), n.id ∉ rs.flatten.map Mbuf.id →
      rs.map (relink n' linked) = rs := by
    intro rs hrs
    refine (List.map_congr_left fun r hr => ?_).trans (List.map_id rs)
    refine relink_of_notMem r fun hin => hrs ?_
    rw [hid] at hin
    obtain ⟨m, hm, he⟩ := List.mem_map.mp hin
    exact List.mem_map.mpr ⟨m, List.mem_flatten_of_mem hr hm, he⟩
  rw [List.map_append, List.map_cons, relink_last b hid fun hin => hbdis hin List.mem_cons_self,
    hkeep front fun hin => hne hin (List.mem_append_left _ hmem),
    hkeep back fun hin => hdis hmem hin]

/-! ## sbcompress -/

/-- The buffer after `sbcompress` behind the last mbuf of a record. -/
theorem Compresses.place_some {b : List Mbuf} {front back : List (List Mbuf)} {eor : Bool}
    {r : Compressed} (hc : Compresses chain mem sb eor (some n) r)
    (hmb : sb.mb = front ++ (b ++ [n]) :: back) (hnd : sb.ids.Nodup) :
    ∃ n', r.n = some n' ∧ n'.id = n.id
      ∧ r.place = { r.sb with mb := front ++ (b ++ n' :: r.linked) :: back } := by
  obtain ⟨n', hn', hid⟩ := Option.map_eq_some_iff.mp hc.n_id
  refine ⟨n', hn', hid, ?_⟩
  have hmap : r.sb.mb.map (relink n' r.linked) = front ++ (b ++ n' :: r.linked) :: back := by
    rw [Sockbuf.ids, hmb] at hnd
    rw [hc.frame.1, hmb, map_relink hid hnd]
  rw [Compressed.place, hn']
  simp only [hmap]

/-- The buffer after `sbcompress` into an empty one. -/
theorem Compresses.place_none {eor : Bool} {r : Compressed}
    (hc : Compresses chain mem sb eor none r) (hmb : sb.mb = []) :
    r.n = none ∧ r.place = { r.sb with mb := if r.linked = [] then [] else [r.linked] } := by
  have hn : r.n = none := by
    have hid := hc.n_id
    rwa [Option.map_none, Option.map_eq_none_iff] at hid
  refine ⟨hn, ?_⟩
  rw [Compressed.place, hn]
  by_cases hl : r.linked = []
  · simp only [hl, if_true]
    rw [← hmb, ← hc.frame.1]
  · simp only [hl, if_false]

/-- `sbcompress` behind the last mbuf of a record. -/
theorem sbcompress_some {b : List Mbuf} {front back : List (List Mbuf)}
    (h : sbcompress mem sb chain (some n.id) = some (mem', sb'))
    (hmb : sb.mb = front ++ (b ++ [n]) :: back) (hnd : sb.ids.Nodup)
    (hlast : ∀ p ∈ sb.lastrecord, p ∉ chain.map Mbuf.id) :
    ∃ n' linked, sb'.mb = front ++ (b ++ n' :: linked) :: back ∧ n'.id = n.id
      ∧ (linked.map Mbuf.id).Sublist (chain.map Mbuf.id)
      ∧ sb'.lastrecord = sb.lastrecord
      ∧ sb'.mbtail = (linked.getLast?.map Mbuf.id).or sb.mbtail
      ∧ (linked = [] ↔ swallows chain mem false n = true)
      ∧ (sb.counters = charges sb.mb.flatten → sb'.counters = charges sb'.mb.flatten) := by
  have hfind : sb.find n.id = some n := find_of_mem hmb hnd
  rw [sbcompress, hfind] at h
  obtain ⟨r, hr, he⟩ := Option.map_eq_some_iff.mp h
  have hc := compresses_of_eq chain hr
  obtain ⟨n', hn', hid, hplace⟩ := hc.place_some hmb hnd
  obtain rfl : r.place = sb' := congrArg Prod.snd he
  rw [hplace]
  refine ⟨n', r.linked, rfl, hid, hc.linked_sublist, hc.lastrecord hlast, hc.mbtail,
    hc.linked_eq_nil_iff rfl, fun hcount => ?_⟩
  have hcc := hc.counters
  rw [hn', hcount, hmb] at hcc
  simp only [Option.toList_some, List.flatten_append, List.flatten_cons, charges_append,
    charges_cons, charges_nil, add_zero] at hcc ⊢
  have hcancel : r.sb.counters + n.charge
      = charges front.flatten + (charges b + (n'.charge + charges r.linked) + charges back.flatten)
        + n.charge := by
    rw [hcc]
    ac_rfl
  exact add_right_cancel hcancel

/-- `sbcompress` into an empty buffer. -/
theorem sbcompress_none (h : sbcompress mem sb chain none = some (mem', sb'))
    (hmb : sb.mb = []) (hnd : (chain.map Mbuf.id).Nodup) :
    ∃ linked, sb'.mb = (if linked = [] then [] else [linked])
      ∧ (linked.map Mbuf.id).Sublist (chain.map Mbuf.id)
      ∧ (sb.lastrecord = chain.head?.map Mbuf.id → sb'.lastrecord = linked.head?.map Mbuf.id)
      ∧ sb'.mbtail = (linked.getLast?.map Mbuf.id).or sb.mbtail
      ∧ (sb.counters = 0 → sb'.counters = charges linked) := by
  obtain ⟨r, hr, he⟩ := Option.map_eq_some_iff.mp h
  have hc := compresses_of_eq chain hr
  obtain ⟨hn, hplace⟩ := hc.place_none hmb
  obtain rfl : r.place = sb' := congrArg Prod.snd he
  rw [hplace]
  refine ⟨r.linked, rfl, hc.linked_sublist, hc.lastrecord_none hnd, hc.mbtail, ?_⟩
  intro h0
  have hcc := hc.counters
  rw [hn, h0, Option.toList_none, charges_nil, add_zero, zero_add, List.nil_append] at hcc
  exact hcc

/-! ## SBLINKRECORD -/

theorem linkAfter_concat {p : Nat} {r r₀ : List Mbuf} (rs : List (List Mbuf))
    (hrs : ∀ r' ∈ rs, r'.head?.map Mbuf.id ≠ some p) (h₀ : r₀.head?.map Mbuf.id = some p) :
    linkAfter p r (rs ++ [r₀]) = some (rs ++ [r₀, r]) := by
  induction rs with
  | nil => rw [List.nil_append, linkAfter, if_pos h₀, List.nil_append]
  | cons r' rs ih =>
    rw [List.cons_append, linkAfter, if_neg (hrs r' List.mem_cons_self),
      ih fun r'' h => hrs r'' (List.mem_cons_of_mem _ h)]
    rfl

/-- No other record starts where the last one does. -/
theorem head_ne_of_nodup {rs : List (List Mbuf)}
    (hnd : ((rs ++ [m :: ms]).flatten.map Mbuf.id).Nodup) :
    ∀ r ∈ rs, r.head?.map Mbuf.id ≠ some m.id := by
  intro r hr he
  obtain ⟨m', hm', hid⟩ := Option.map_eq_some_iff.mp he
  rw [List.flatten_append, List.map_append] at hnd
  refine (List.nodup_append'.mp hnd).2.2 (List.mem_map.mpr ⟨m', ?_, hid⟩) List.mem_cons_self
  exact List.mem_flatten_of_mem hr (List.mem_of_mem_head? hm')

/-- With `sb_lastrecord` at the last record, the new record goes to the end. -/
theorem sblinkrecord_spec (sb : Sockbuf) (hne : [] ∉ sb.mb) (hnd : sb.ids.Nodup)
    (hlast : sb.lastrecord = (sb.mb.getLast?.bind List.head?).map Mbuf.id) (r : List Mbuf) :
    sblinkrecord sb r = some { sb with mb := sb.mb ++ [r], lastrecord := r.head?.map Mbuf.id } := by
  obtain hnil | ⟨rs, r₀, hconcat⟩ := sb.mb.eq_nil_or_concat
  · have hnone : sb.lastrecord = none := by
      rw [hlast, hnil]
      rfl
    rw [sblinkrecord, hnone, hnil]
    rfl
  · rw [List.concat_eq_append] at hconcat
    rw [hconcat] at hlast hne
    rw [List.getLast?_concat, Option.bind_some] at hlast
    cases r₀ with
    | nil => exact absurd (List.mem_append_right _ List.mem_cons_self) hne
    | cons m ms =>
      have hsome : sb.lastrecord = some m.id := hlast
      rw [Sockbuf.ids, hconcat] at hnd
      rw [sblinkrecord, hsome]
      simp only [hconcat]
      rw [linkAfter_concat rs (head_ne_of_nodup hnd) rfl, List.append_assoc]
      rfl

theorem record_last {rs : List (List Mbuf)} (hmb : sb.mb = rs ++ [m :: ms])
    (hnd : sb.ids.Nodup) : sb.record m.id = some (m :: ms) := by
  rw [Sockbuf.ids, hmb] at hnd
  rw [Sockbuf.record, hmb, List.find?_append, List.find?_eq_none.mpr fun r hr => ?_,
    Option.none_or, List.find?_cons_of_pos]
  · exact decide_eq_true rfl
  · rw [decide_eq_true_eq]
    exact head_ne_of_nodup hnd r hr

/-! ## sbdrop -/

/-- `sb'` is `sb` with other counters and, maybe, other records. -/
structure Recounts (sb sb' : Sockbuf) : Prop where
  lastrecord : sb'.lastrecord = sb.lastrecord
  mbtail : sb'.mbtail = sb.mbtail
  lock : sb'.lock = sb.lock

theorem Recounts.refl (sb : Sockbuf) : Recounts sb sb := ⟨rfl, rfl, rfl⟩

theorem Recounts.trans {sb₁ sb₂ sb₃ : Sockbuf} (h : Recounts sb₁ sb₂) (h' : Recounts sb₂ sb₃) :
    Recounts sb₁ sb₃ :=
  ⟨h'.lastrecord.trans h.lastrecord, h'.mbtail.trans h.mbtail, h'.lock.trans h.lock⟩

/-- What a loop that takes mbufs off the front of a record leaves: a rest of the record,
paid for by the counters next to whatever else (`x`) they count. -/
structure DropsFrom (ms : List Mbuf) (sb : Sockbuf) (x : Nat × Nat × Nat) (d : Dropping) :
    Prop where
  recounts : Recounts sb d.sb
  counters : d.sb.counters = charges d.m + x
  suffix : d.m.map Mbuf.id <:+ ms.map Mbuf.id

theorem DropsFrom.cons {x : Nat × Nat × Nat} {d : Dropping}
    (h : DropsFrom ms (sbfree sb m) x d) : DropsFrom (m :: ms) sb x d where
  recounts := (show Recounts sb (sbfree sb m) from ⟨rfl, rfl, rfl⟩).trans h.recounts
  counters := h.counters
  suffix := h.suffix.trans (List.suffix_cons _ _)

theorem counters_tail {x : Nat × Nat × Nat} (h : sb.counters = charges (m :: ms) + x) :
    (sbfree sb m).counters = charges ms + x := by
  rw [charges_cons, add_assoc] at h
  exact counters_sbfree h

theorem sbdropRecord_spec (ms : List Mbuf) :
    ∀ (mem : Mem) {sb : Sockbuf} (len : Nat) {x : Nat × Nat × Nat},
      sb.counters = charges ms + x →
      DropsFrom ms sb x (sbdropRecord ms mem sb len)
        ∧ ((sbdropRecord ms mem sb len).len ≠ 0 → (sbdropRecord ms mem sb len).m = []) := by
  induction ms with
  | nil =>
    intro mem sb len x hx
    exact ⟨⟨.refl sb, hx, List.suffix_rfl⟩, fun _ => rfl⟩
  | cons m ms ih =>
    intro mem sb len x hx
    rw [sbdropRecord]
    by_cases h0 : len = 0
    · rw [if_pos h0]
      exact ⟨⟨.refl sb, hx, List.suffix_rfl⟩, fun h => absurd rfl h⟩
    · rw [if_neg h0]
      by_cases hlt : len < m.len
      · rw [if_pos hlt]
        refine ⟨⟨⟨rfl, rfl, rfl⟩, ?_, List.suffix_rfl⟩, fun h => absurd rfl h⟩
        rw [charges_cons, add_assoc] at hx ⊢
        exact counters_shrink hlt.le hx
      · rw [if_neg hlt]
        obtain ⟨hd, hl⟩ := ih (mem.mFree m) (len - m.len) (counters_tail hx)
        exact ⟨hd.cons, hl⟩

theorem sbdropEmpty_spec (ms : List Mbuf) :
    ∀ (mem : Mem) {sb : Sockbuf} {x : Nat × Nat × Nat},
      sb.counters = charges ms + x → DropsFrom ms sb x (sbdropEmpty ms mem sb) := by
  induction ms with
  | nil =>
    intro mem sb x hx
    exact ⟨.refl sb, hx, List.suffix_rfl⟩
  | cons m ms ih =>
    intro mem sb x hx
    rw [sbdropEmpty]
    by_cases h0 : m.len = 0
    · rw [if_pos h0]
      exact (ih (mem.mFree m) (counters_tail hx)).cons
    · rw [if_neg h0]
      exact ⟨.refl sb, hx, List.suffix_rfl⟩

/-- Where the loop of `sbdrop` ends: in some record, with the records after it untouched. -/
theorem sbdropLoop_spec (next : List (List Mbuf)) :
    ∀ {m : List Mbuf} {mem : Mem} {sb : Sockbuf} {len : Nat} {d : Dropping}
      {next' : List (List Mbuf)},
      sbdropLoop next m mem sb len = some (d, next') →
      sb.counters = charges m + charges next.flatten →
      ∃ pre r, m :: next = pre ++ r :: next' ∧ DropsFrom r sb (charges next'.flatten) d := by
  induction next with
  | nil =>
    intro m mem sb len d next' h hx
    rw [sbdropLoop] at h
    split at h
    · obtain ⟨rfl, rfl⟩ := Prod.mk.injEq _ _ _ _ ▸ Option.some.inj h
      exact ⟨[], m, rfl, (sbdropRecord_spec m mem len hx).1⟩
    · cases h
  | cons r next ih =>
    intro m mem sb len d next' h hx
    obtain ⟨hd, hnil⟩ := sbdropRecord_spec m mem len hx
    rw [sbdropLoop] at h
    split at h
    · obtain ⟨rfl, rfl⟩ := Prod.mk.injEq _ _ _ _ ▸ Option.some.inj h
      exact ⟨[], m, rfl, hd⟩
    · rename_i hlen
      have hcount := hd.counters
      rw [hnil hlen, charges_nil, zero_add, List.flatten_cons, charges_append] at hcount
      obtain ⟨pre, r', he, hd'⟩ := ih h hcount
      refine ⟨m :: pre, r', by rw [he, List.cons_append], ⟨?_, hd'.counters, hd'.suffix⟩⟩
      exact hd.recounts.trans hd'.recounts

/-- `sbdrop` leaves the end of one record and the records after it. -/
theorem sbdrop_spec {len : Int} (h : sbdrop mem sb len = some (mem', sb'))
    (hx : sb.counters = charges sb.mb.flatten) :
    ∃ pre r next m sb₀, sb.mb.head?.getD [] :: sb.mb.tail = pre ++ r :: next
      ∧ m.map Mbuf.id <:+ r.map Mbuf.id ∧ Recounts sb sb₀
      ∧ sb₀.counters = charges m + charges next.flatten ∧ sb' = sbdropEnd m next sb₀ := by
  obtain ⟨⟨d, next⟩, hloop, he⟩ := Option.map_eq_some_iff.mp h
  have hsplit : charges sb.mb.flatten
      = charges (sb.mb.head?.getD []) + charges sb.mb.tail.flatten := by
    cases sb.mb with
    | nil => rfl
    | cons r rs => exact charges_append r rs.flatten
  obtain ⟨pre, r, hrec, hd⟩ := sbdropLoop_spec _ hloop (hx.trans hsplit)
  have hempty := sbdropEmpty_spec d.m d.mem hd.counters
  exact ⟨pre, r, next, _, _, hrec, hempty.suffix.trans hd.suffix,
    hd.recounts.trans hempty.recounts, hempty.counters, (congrArg Prod.snd he).symm⟩

end Obsd.Sb
