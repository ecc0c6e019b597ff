import Obsd.SockbufTail

/-!
# A stream socket buffer is a byte queue

What `sbappendstream`, `sbdrop` and `sbflush` do to the bytes. Compaction
writes behind the data of the tail mbuf, and the point is that no other
mbuf looks there: `M_READONLY` keeps it away from storage that is shared,
and an mbuf's own storage is not shared at all (`Owned`).
-/

namespace Obsd.Sb

variable {mem mem' : Mem} {sb sb' : Sockbuf} {m n : Mbuf} {ms chain : List Mbuf}

/-! ## Bytes -/

/-- The bytes an mbuf holds. -/
def view (mem : Mem) (m : Mbuf) : List UInt8 := mem.read m.store m.data m.len

def content (mem : Mem) (ms : List Mbuf) : List UInt8 := ms.flatMap (view mem)

@[simp] theorem content_nil (mem : Mem) : content mem [] = [] := rfl

@[simp] theorem content_cons (mem : Mem) (m : Mbuf) (ms : List Mbuf) :
    content mem (m :: ms) = view mem m ++ content mem ms := List.flatMap_cons

@[simp] theorem content_append (mem : Mem) (ms ns : List Mbuf) :
    content mem (ms ++ ns) = content mem ms ++ content mem ns := List.flatMap_append

@[simp] theorem length_read (mem : Mem) (st : Store) (off len : Nat) :
    (mem.read st off len).length = len := by
  rw [Mem.read, List.length_map, List.length_range]

@[simp] theorem length_view (mem : Mem) (m : Mbuf) : (view mem m).length = m.len :=
  length_read mem m.store m.data m.len

theorem length_content (mem : Mem) (ms : List Mbuf) :
    (content mem ms).length = (ms.map Mbuf.len).sum := by
  induction ms with
  | nil => rfl
  | cons m ms ih =>
    rw [content_cons, List.length_append, length_view, ih, List.map_cons, List.sum_cons]

theorem view_of_len_zero (h : m.len = 0) : view mem m = [] := by
  rw [view, h]
  rfl

theorem content_congr (h : ∀ m ∈ ms, view mem' m = view mem m) :
    content mem' ms = content mem ms :=
  List.flatMap_congr h

theorem view_of_bytes (h : mem'.bytes = mem.bytes) (m : Mbuf) : view mem' m = view mem m := by
  rw [view, view, Mem.read, Mem.read, h]

theorem mFree_bytes (mem : Mem) (m : Mbuf) : (mem.mFree m).bytes = mem.bytes := by
  rw [Mem.mFree]
  cases m.ext <;> rfl

theorem read_drop (mem : Mem) (st : Store) (off k len : Nat) :
    mem.read st (off + k) (len - k) = (mem.read st off len).drop k := by
  refine List.ext_getElem ?_ fun i h₁ h₂ => ?_
  · rw [length_read, List.length_drop, length_read]
  · simp only [Mem.read, List.getElem_map, List.getElem_range, List.getElem_drop]
    rw [Nat.add_assoc]

theorem read_write_ne {st st' : Store} (h : st' ≠ st) (mem : Mem) (off o len : Nat)
    (p : List UInt8) : (mem.write st off p).read st' o len = mem.read st' o len := by
  refine List.map_congr_left fun i _ => ?_
  change Function.update mem.bytes st _ st' (o + i) = _
  rw [Function.update_of_ne h]

/-- What is written right behind some bytes is read right behind them. -/
theorem read_write (mem : Mem) (st : Store) (off k : Nat) (p : List UInt8) :
    (mem.write st (off + k) p).read st off (k + p.length) = mem.read st off k ++ p := by
  refine List.ext_getElem ?_ fun i h₁ h₂ => ?_
  · rw [length_read, List.length_append, length_read]
  · rw [length_read] at h₁
    have hbyte : ((mem.write st (off + k) p).read st off (k + p.length))[i]
        = if off + k ≤ off + i then (p[off + i - (off + k)]?).getD (mem.bytes st (off + i))
          else mem.bytes st (off + i) := by
      simp only [Mem.read, List.getElem_map, List.getElem_range]
      change Function.update mem.bytes st _ st (off + i) = _
      rw [Function.update_self]
    rw [hbyte]
    by_cases hi : i < k
    · rw [if_neg (by omega), List.getElem_append_left (by rw [length_read]; exact hi)]
      simp only [Mem.read, List.getElem_map, List.getElem_range]
    · rw [if_pos (by omega), List.getElem_append_right (by rw [length_read]; omega)]
      have hsub : off + i - (off + k) = i - k := by omega
      have hlt : i - k < p.length := by omega
      rw [hsub, List.getElem?_eq_getElem hlt, Option.getD_some]
      simp only [length_read]

/-! ## Ownership -/

/-- The data lies within the storage. -/
def Mbuf.Fits (m : Mbuf) : Prop := m.data + m.len ≤ m.size

/-- How many of the mbufs refer to an external buffer. -/
def refCount (buf : Nat) (ms : List Mbuf) : Nat :=
  ms.countP fun m => m.ext.map Ext.buf = some buf

/-- The mbufs are different ones, every reference of theirs is counted, and their data lies
within their storage. Others may refer to the external buffers as well. -/
structure Owned (mem : Mem) (ms : List Mbuf) : Prop where
  nodup : (ms.map Mbuf.id).Nodup
  refs : ∀ buf, refCount buf ms ≤ mem.refs buf
  fits : ∀ m ∈ ms, m.Fits

theorem Owned.perm {ns : List Mbuf} (h : Owned mem ms) (hp : ms.Perm ns) : Owned mem ns where
  nodup := (hp.map Mbuf.id).nodup_iff.mp h.nodup
  refs buf := by
    rw [refCount, ← hp.countP_eq]
    exact h.refs buf
  fits m hm := h.fits m (hp.mem_iff.mpr hm)

theorem Owned.congr (h : Owned mem ms) (hrefs : mem'.refs = mem.refs) : Owned mem' ms where
  nodup := h.nodup
  refs buf := hrefs ▸ h.refs buf
  fits := h.fits

/-- A change to an mbuf that leaves its address and its storage. -/
theorem Owned.modify (h : Owned mem (m :: ms)) (m' : Mbuf) (hid : m'.id = m.id)
    (hext : m'.ext = m.ext) (hfits : m'.Fits) : Owned mem (m' :: ms) where
  nodup := by
    have hnd := h.nodup
    rw [List.map_cons] at hnd ⊢
    rwa [hid]
  refs buf := by
    have hrefs := h.refs buf
    rw [refCount, List.countP_cons] at hrefs ⊢
    rwa [hext]
  fits o ho := by
    obtain rfl | ho := List.mem_cons.mp ho
    · exact hfits
    · exact h.fits o (List.mem_cons_of_mem _ ho)

/-- The mbufs that stay own what is left when one is freed. -/
theorem Owned.free (h : Owned mem (m :: ms)) : Owned (mem.mFree m) ms where
  nodup := (List.nodup_cons.mp h.nodup).2
  refs buf := by
    have hrefs := h.refs buf
    rw [refCount, List.countP_cons] at hrefs
    rw [refCount, Mem.mFree]
    cases he : m.ext with
    | none =>
      rw [he, if_neg (by simp)] at hrefs
      exact hrefs
    | some e =>
      change _ ≤ Function.update mem.refs e.buf (mem.refs e.buf - 1) buf
      rw [he] at hrefs
      by_cases hbuf : buf = e.buf
      · subst hbuf
        rw [if_pos (by simp)] at hrefs
        rw [Function.update_self]
        exact Nat.le_sub_of_add_le hrefs
      · rw [Function.update_of_ne hbuf]
        exact (Nat.le_add_right _ _).trans hrefs
  fits o ho := h.fits o (List.mem_cons_of_mem _ ho)

/-- Nobody else's data lies in storage that may be written. -/
theorem Owned.store_ne (h : Owned mem (n :: ms)) (hro : mReadonly mem n = false) :
    ∀ o ∈ ms, o.store ≠ n.store := by
  intro o ho heq
  rw [Mbuf.store, Mbuf.store] at heq
  rw [mReadonly] at hro
  cases hn : n.ext with
  | none =>
    rw [hn] at heq
    cases ho' : o.ext with
    | none =>
      rw [ho'] at heq
      injection heq with hid
      exact (List.nodup_cons.mp h.nodup).1 (hid ▸ List.mem_map_of_mem ho)
    | some e' =>
      rw [ho'] at heq
      cases heq
  | some e =>
    rw [hn] at heq hro
    have hrefs : mem.refs e.buf ≤ 1 := by
      rw [Bool.or_eq_false_iff, decide_eq_false_iff_not, Nat.not_lt] at hro
      exact hro.2
    have hpos : 0 < ms.countP fun m => m.ext.map Ext.buf = some e.buf := by
      refine List.countP_pos_iff.mpr ⟨o, ho, ?_⟩
      cases ho' : o.ext with
      | none =>
        rw [ho'] at heq
        cases heq
      | some e' =>
        rw [ho'] at heq
        injection heq with hbuf
        rw [decide_eq_true_eq, Option.map_some, hbuf]
    have hcount := h.refs e.buf
    rw [refCount, List.countP_cons, hn, if_pos (by simp)] at hcount
    omega

/-! ## Compaction -/

/-- A copy stays within the storage of the tail mbuf. -/
theorem room_of_absorbs (hfits : n.Fits) (ha : absorbs mem m n = true) :
    n.data + n.len + m.len ≤ n.size ∧ (mReadonly mem n = true → m.len = 0) := by
  rw [absorbs, decide_eq_true_eq] at ha
  have hspace := ha.2.2.1
  rw [mTrailingspace] at hspace
  rw [Mbuf.Fits] at hfits
  by_cases hro : mReadonly mem n = true
  · rw [if_pos hro] at hspace
    have hzero : m.len = 0 := by omega
    exact ⟨by omega, fun _ => hzero⟩
  · exact ⟨by omega, fun h => absurd h hro⟩

/-- The tail mbuf after `m` has been copied into it. -/
def Mbuf.grow (n m : Mbuf) : Mbuf := { n with len := n.len + m.len }

/-- A copy puts the bytes of `m` behind those of `n`, and nobody else sees it. -/
theorem bcopy_spec (h : Owned mem (n :: m :: ms)) (ha : absorbs mem m n = true) :
    ∃ mem', bcopy mem m n = some mem' ∧ view mem' (n.grow m) = view mem n ++ view mem m
      ∧ (∀ o ∈ ms, view mem' o = view mem o) ∧ (n.grow m).Fits := by
  have hfn := h.fits n List.mem_cons_self
  have hfm : m.data + m.len ≤ m.size := h.fits m (List.mem_cons_of_mem _ List.mem_cons_self)
  obtain ⟨hroom, hro⟩ := room_of_absorbs hfn ha
  refine ⟨mem.write n.store (n.data + n.len) (view mem m), if_pos ⟨hfm, hroom⟩, ?_, ?_, ?_⟩
  · have hread := read_write mem n.store n.data n.len (view mem m)
    rw [length_view] at hread
    exact hread
  · intro o ho
    by_cases hread : mReadonly mem n = true
    · -- nothing is copied into read-only storage
      have hnil : view mem m = [] := view_of_len_zero (hro hread)
      refine view_of_bytes ?_ o
      rw [hnil, Mem.write]
      funext st i
      by_cases hst : st = n.store
      · subst hst
        change Function.update mem.bytes n.store _ n.store i = _
        rw [Function.update_self, List.getElem?_nil, Option.getD_none, ite_self]
      · change Function.update mem.bytes n.store _ st i = _
        rw [Function.update_of_ne hst]
    · rw [Bool.not_eq_true] at hread
      exact read_write_ne (h.store_ne hread o (List.mem_cons_of_mem _ ho)) mem _ _ _ _
  · change n.data + (n.len + m.len) ≤ n.size
    omega

/-- The loop of `sbcompress` returns, with the bytes of `*n` and of the chain where they
were and everybody else's untouched. -/
theorem sbcompressLoop_bytes (chain : List Mbuf) :
    ∀ {mem : Mem} (sb : Sockbuf) (eor : Bool) {n : Option Mbuf} {others : List Mbuf},
      Owned mem (n.toList ++ (chain ++ others)) →
      ∃ r, sbcompressLoop chain mem sb eor n = some r
        ∧ content r.mem (r.n.toList ++ r.linked) = content mem (n.toList ++ chain)
        ∧ (∀ o ∈ others, view r.mem o = view mem o)
        ∧ Owned r.mem ((r.n.toList ++ r.linked) ++ others) := by
  induction chain with
  | nil =>
    intro mem sb eor n others h
    refine ⟨_, rfl, ?_, fun o _ => rfl, ?_⟩
    · cases n <;> rfl
    · cases n with
      | none => exact h
      | some n => exact h.modify _ rfl rfl (h.fits n List.mem_cons_self)
  | cons m ms ih =>
    intro mem sb eor n others h
    rw [sbcompressLoop]
    by_cases hd : discards (eor || m.eor) n m ms = true
    · rw [if_pos hd]
      have hlen : m.len = 0 := by
        rw [discards, decide_eq_true_eq] at hd
        exact hd.1
      have hfree : Owned (mem.mFree m) (n.toList ++ (ms ++ others)) :=
        (h.perm List.perm_middle).free
      obtain ⟨r, hr, hbytes, hothers, howned⟩ := ih _ (eor || m.eor) hfree
      have hview := view_of_bytes (mFree_bytes mem m)
      refine ⟨r, hr, ?_, fun o ho => (hothers o ho).trans (hview o), howned⟩
      rw [hbytes, content_congr fun o _ => hview o, content_append, content_append, content_cons,
        view_of_len_zero hlen, List.nil_append]
    · rw [if_neg hd]
      cases hf : n.filter (absorbs mem m) with
      | some n' =>
        obtain ⟨rfl, ha⟩ := Option.filter_eq_some_iff.mp hf
        obtain ⟨mem', hcopy, hgrow, hothers', hfits⟩ := bcopy_spec h ha
        have hfree : Owned (mem'.mFree m) ((some (n'.grow m)).toList ++ (ms ++ others)) := by
          have hgrown : Owned mem' (n'.grow m :: m :: (ms ++ others)) :=
            (h.modify (n'.grow m) rfl rfl hfits).congr (bcopy_refs hcopy)
          exact (hgrown.perm (List.Perm.swap _ _ _)).free
        obtain ⟨r, hr, hbytes, hothers, howned⟩ := ih (sb.copied m) (eor || m.eor) hfree
        have hview := view_of_bytes (mFree_bytes mem' m)
        refine ⟨r, ?_, ?_, fun o ho => ?_, howned⟩
        · change (bcopy mem m n').bind _ = _
          rw [hcopy, Option.bind_some]
          exact hr
        · rw [hbytes, content_congr fun o _ => hview o]
          simp only [Option.toList_some, List.singleton_append, content_cons]
          rw [hgrow, content_congr fun o ho => hothers' o (List.mem_append_left _ ho),
            List.append_assoc]
        · rw [hothers o ho, hview o, hothers' o (List.mem_append_right _ ho)]
      | none =>
        have hlinked : Owned mem
            ((some { m with eor := false } : Option Mbuf).toList ++ (ms ++ (others ++ n.toList))) := by
          have hperm : (n.toList ++ (m :: ms ++ others)).Perm
              (m :: (ms ++ (others ++ n.toList))) := by
            rw [List.cons_append, ← List.append_assoc ms]
            exact List.perm_append_comm
          exact (h.perm hperm).modify _ rfl rfl
            (h.fits m (List.mem_append_right _ List.mem_cons_self))
        obtain ⟨r, hr, hbytes, hothers, howned⟩ :=
          ih (sballoc { sb with mbtail := some m.id } m) (eor || m.eor) hlinked
        refine ⟨_, congrArg (Option.map _) hr, ?_, fun o ho => ?_, ?_⟩
        · rw [content_append, hbytes,
            content_congr fun o ho => hothers o (List.mem_append_right _ ho),
            content_append mem n.toList]
          rfl
        · exact hothers o (List.mem_append_left _ ho)
        · refine howned.perm ?_
          rw [← List.append_assoc, List.append_assoc n.toList]
          exact List.perm_append_comm

/-! ## The stream buffer -/

/-- A stream buffer: consistent, of one record at most, and owning its mbufs. -/
structure Stream (mem : Mem) (sb : Sockbuf) : Prop where
  wf : Wf sb
  consistent : Consistent sb
  single : sb.mb.length ≤ 1
  owned : Owned mem sb.mb.flatten
  unlocked : sb.lock = false

theorem Stream.empty (mem : Mem) (hiwat mbmax : Nat) : Stream mem (.empty hiwat mbmax) where
  wf := wf_empty hiwat mbmax
  consistent := consistent_empty hiwat mbmax
  single := Nat.zero_le 1
  owned := ⟨List.nodup_nil, fun _ => Nat.zero_le _, fun _ h => absurd h List.not_mem_nil⟩
  unlocked := rfl

theorem Stream.cases (h : Stream mem sb) : sb.mb = [] ∨ ∃ b n, sb.mb = [b ++ [n]] := by
  obtain hnil | ⟨rs, b, n, hmb⟩ := h.wf.cases
  · exact .inl hnil
  · cases rs with
    | nil => exact .inr ⟨b, n, hmb⟩
    | cons r rs =>
      have hlen := h.single
      rw [hmb, List.length_append, List.length_cons, List.length_singleton] at hlen
      omega

theorem Stream.cc_eq (h : Stream mem sb) : sb.cc = (content mem sb.mb.flatten).length := by
  rw [length_content]
  exact h.consistent.cc

/-- `sbcompress` at the end of a stream buffer. -/
theorem sbcompress_bytes (h : Stream mem sb) (hown : Owned mem (sb.mb.flatten ++ chain)) :
    ∃ mem' sb', sbcompress mem sb chain sb.mbtail = some (mem', sb')
      ∧ content mem' sb'.mb.flatten = content mem sb.mb.flatten ++ content mem chain
      ∧ Owned mem' sb'.mb.flatten ∧ sb'.lock = false := by
  obtain hmb | ⟨b, n, hmb⟩ := h.cases
  · have htail := (h.consistent.of_nil hmb).2.2
    rw [hmb] at hown ⊢
    have hchain : Owned mem ((none : Option Mbuf).toList ++ (chain ++ [])) := by
      rw [List.append_nil]
      exact hown
    obtain ⟨r, hr, hbytes, -, howned⟩ := sbcompressLoop_bytes chain sb false hchain
    have hc := compresses_of_eq chain hr
    obtain ⟨hn, hplace⟩ := hc.place_none hmb
    have hflat : r.place.mb.flatten = r.linked := by
      rw [hplace]
      split
      · rename_i hl
        rw [hl]
        rfl
      · exact List.append_nil _
    refine ⟨r.mem, r.place, ?_, ?_, ?_, ?_⟩
    · rw [htail, sbcompress, hr]
      rfl
    · rw [hflat, ← List.nil_append r.linked, ← Option.toList_none, ← hn]
      exact hbytes
    · rw [hn, List.append_nil] at howned
      rw [hflat]
      exact howned
    · rw [hplace]
      exact hc.frame.2.trans h.unlocked
  · have htail : sb.mbtail = some n.id := by
      rw [h.consistent.mbtail, endMbuf_concat (show sb.mb = [] ++ [b ++ [n]] from hmb)]
    have hflat₀ : sb.mb.flatten = b ++ [n] := by
      rw [hmb]
      exact List.append_nil _
    have hchain : Owned mem ((some n).toList ++ (chain ++ b)) := by
      refine hown.perm ?_
      rw [hflat₀, List.append_assoc, ← List.append_assoc _ chain]
      exact List.perm_append_comm
    obtain ⟨r, hr, hbytes, hothers, howned⟩ := sbcompressLoop_bytes chain sb false hchain
    have hc := compresses_of_eq chain hr
    obtain ⟨n', hn', -, hplace⟩ := hc.place_some (show sb.mb = [] ++ (b ++ [n]) :: [] from hmb)
      h.wf.nodup
    have hflat : r.place.mb.flatten = b ++ n' :: r.linked := by
      rw [hplace]
      exact List.append_nil _
    rw [hn'] at hbytes howned
    refine ⟨r.mem, r.place, ?_, ?_, ?_, ?_⟩
    · rw [htail, sbcompress, Sockbuf.find,
        find_of_mem (show sb.mb = [] ++ (b ++ [n]) :: [] from hmb) h.wf.nodup, Option.bind_some, hr]
      rfl
    · rw [hflat, hflat₀, content_append, content_append, List.append_assoc]
      rw [Option.toList_some, Option.toList_some, content_append mem] at hbytes
      rw [← hbytes, content_congr hothers]
      rfl
    · rw [hflat]
      exact howned.perm List.perm_append_comm
    · rw [hplace]
      exact hc.frame.2.trans h.unlocked

theorem sbappendstream_bytes (h : Stream mem sb) (hown : Owned mem (sb.mb.flatten ++ chain)) :
    ∃ mem' sb', sbappendstream mem sb chain = some (mem', sb') ∧ Stream mem' sb'
      ∧ content mem' sb'.mb.flatten = content mem sb.mb.flatten ++ content mem chain := by
  obtain ⟨mem', sb', hcomp, hbytes, howned, hlock⟩ := sbcompress_bytes h hown
  have hfirst : sb.first = sb.lastrecord := by
    rw [h.consistent.lastrecord, endRecord_eq_first h.single]
  have hres : sbappendstream mem sb chain
      = some (mem', { sb' with lastrecord := sb'.first }) := by
    rw [sbappendstream, if_pos hfirst, hcomp]
    rfl
  have hfresh : (sb.ids ++ chain.map Mbuf.id).Nodup := by
    rw [Sockbuf.ids, ← List.map_append]
    exact hown.nodup
  obtain ⟨hwf, hc, hlen⟩ := sbappendstream_spec h.wf h.consistent hfresh hres
  exact ⟨mem', _, hres, ⟨hwf, hc, hlen, howned, hlock⟩, hbytes⟩

/-! ## Dropping -/

/-- What a loop that frees mbufs at the front leaves behind: the storage as it was, the
bytes `p`, and the mbufs it has not freed still owned. -/
structure Leaves (mem : Mem) (p : List UInt8) (d : Dropping) : Prop where
  bytes : d.mem.bytes = mem.bytes
  content : content mem d.m = p
  owned : Owned d.mem d.m

theorem Leaves.of_free {p : List UInt8} {d : Dropping} (h : Leaves (mem.mFree m) p d) :
    Leaves mem p d where
  bytes := h.bytes.trans (mFree_bytes mem m)
  content := by
    rw [← h.content]
    exact content_congr fun o _ => (view_of_bytes (mFree_bytes mem m) o).symm
  owned := h.owned

theorem sbdropRecord_bytes (ms : List Mbuf) : ∀ {mem : Mem} (sb : Sockbuf) (len : Nat),
    Owned mem ms →
      Leaves mem ((content mem ms).drop len) (sbdropRecord ms mem sb len)
        ∧ (sbdropRecord ms mem sb len).len = len - (ms.map Mbuf.len).sum := by
  induction ms with
  | nil =>
    intro mem sb len h
    exact ⟨⟨rfl, List.drop_nil.symm, h⟩, rfl⟩
  | cons m ms ih =>
    intro mem sb len h
    rw [sbdropRecord, List.map_cons, List.sum_cons]
    by_cases h0 : len = 0
    · rw [if_pos h0, h0]
      exact ⟨⟨rfl, rfl, h⟩, (Nat.zero_sub _).symm⟩
    · rw [if_neg h0]
      by_cases hlt : len < m.len
      · rw [if_pos hlt]
        refine ⟨⟨rfl, ?_, h.modify _ rfl rfl ?_⟩, by dsimp only; omega⟩
        · have hview : view mem { m with len := m.len - len, data := m.data + len }
              = (view mem m).drop len := read_drop mem m.store m.data len m.len
          rw [content_cons, content_cons, hview, List.drop_append_of_le_length]
          rw [length_view]
          exact hlt.le
        · have hfits : m.data + m.len ≤ m.size := h.fits m List.mem_cons_self
          change m.data + len + (m.len - len) ≤ m.size
          omega
      · rw [if_neg hlt]
        obtain ⟨hleaves, hlen⟩ := ih (sbfree sb m) (len - m.len) h.free
        refine ⟨?_, by rw [hlen, Nat.sub_sub]⟩
        have hall : (content mem (m :: ms)).drop len
            = (content (mem.mFree m) ms).drop (len - m.len) := by
          rw [content_cons, List.drop_append, List.drop_eq_nil_of_le (by rw [length_view]; omega),
            List.nil_append, length_view,
            content_congr fun o _ => (view_of_bytes (mFree_bytes mem m) o).symm]
        rw [hall]
        exact hleaves.of_free

theorem sbdropEmpty_bytes (ms : List Mbuf) : ∀ {mem : Mem} (sb : Sockbuf),
    Owned mem ms →
      Leaves mem (content mem ms) (sbdropEmpty ms mem sb)
        ∧ ∀ m ∈ (sbdropEmpty ms mem sb).m.head?, m.len ≠ 0 := by
  induction ms with
  | nil =>
    intro mem sb h
    exact ⟨⟨rfl, rfl, h⟩, fun m hm => by cases hm⟩
  | cons m ms ih =>
    intro mem sb h
    rw [sbdropEmpty]
    by_cases h0 : m.len = 0
    · rw [if_pos h0]
      obtain ⟨hleaves, hhead⟩ := ih (sbfree sb m) h.free
      refine ⟨?_, hhead⟩
      have hall : content mem (m :: ms) = content (mem.mFree m) ms := by
        rw [content_cons, view_of_len_zero h0, List.nil_append,
          content_congr fun o _ => (view_of_bytes (mFree_bytes mem m) o).symm]
      rw [hall]
      exact hleaves.of_free
    · rw [if_neg h0]
      refine ⟨⟨rfl, rfl, h⟩, fun m' hm' => ?_⟩
      obtain rfl : m = m' := Option.some.inj hm'
      exact h0

/-- `sbdrop` of no more than there is takes that much off the front, and leaves no empty
mbuf there. -/
theorem sbdrop_bytes {len : Int} (h : Stream mem sb) (hlen : len ≤ sb.cc) :
    ∃ mem' sb', sbdrop mem sb len = some (mem', sb') ∧ Stream mem' sb'
      ∧ content mem' sb'.mb.flatten = (content mem sb.mb.flatten).drop len.toNat
      ∧ ∀ m ∈ sb'.mb.flatten.head?, m.len ≠ 0 := by
  obtain ⟨r, hhead, htail, hflat⟩ : ∃ r, sb.mb.head?.getD [] = r ∧ sb.mb.tail = []
      ∧ sb.mb.flatten = r := by
    obtain hmb | ⟨b, n, hmb⟩ := h.cases
    · rw [hmb]
      exact ⟨[], rfl, rfl, rfl⟩
    · rw [hmb]
      exact ⟨b ++ [n], rfl, rfl, List.append_nil _⟩
  have hown := h.owned
  rw [hflat] at hown
  obtain ⟨hd, hdlen⟩ := sbdropRecord_bytes r sb len.toNat hown
  have hzero : (sbdropRecord r mem sb len.toNat).len = 0 := by
    have hcc := h.consistent.cc
    rw [hflat] at hcc
    omega
  obtain ⟨he, hfront⟩ := sbdropEmpty_bytes _ (sbdropRecord r mem sb len.toNat).sb hd.owned
  have hcount : sb.counters = charges r + 0 := by
    rw [add_zero, ← hflat]
    exact (consistent_iff.mp h.consistent).1
  have hdrops := (sbdropRecord_spec r mem len.toNat hcount).1
  have hre := hdrops.recounts.trans (sbdropEmpty_spec _ (sbdropRecord r mem sb len.toNat).mem
    hdrops.counters).recounts
  generalize hd₂ : sbdropEmpty (sbdropRecord r mem sb len.toNat).m
    (sbdropRecord r mem sb len.toNat).mem (sbdropRecord r mem sb len.toNat).sb = d at he hfront hre
  have hres : sbdrop mem sb len = some (d.mem, sbdropEnd d.m [] d.sb) := by
    rw [sbdrop, hhead, htail, sbdropLoop]
    rw [if_pos hzero, Option.map_some]
    rw [hd₂]
  obtain ⟨hmb', -, hlock'⟩ := sbdropEnd_frame d.m [] d.sb
  have hflat' : (sbdropEnd d.m [] d.sb).mb.flatten = d.m := by
    rw [hmb']
    split
    · rename_i hm
      rw [hm]
      rfl
    · exact List.append_nil _
  obtain ⟨hwf, hc⟩ := sbdrop_consistent h.wf h.consistent hres
  refine ⟨d.mem, _, hres, ⟨hwf, hc, ?_, ?_, ?_⟩, ?_, ?_⟩
  · rw [hmb']
    split
    · exact Nat.zero_le 1
    · exact le_rfl
  · rw [hflat']
    exact he.owned
  · rw [hlock', hre.lock]
    exact h.unlocked
  · rw [hflat', hflat, ← hd.content]
    calc content d.mem d.m
        = content (sbdropRecord r mem sb len.toNat).mem d.m :=
          content_congr fun o _ => view_of_bytes he.bytes o
      _ = content (sbdropRecord r mem sb len.toNat).mem (sbdropRecord r mem sb len.toNat).m :=
          he.content
      _ = content mem (sbdropRecord r mem sb len.toNat).m :=
          content_congr fun o _ => view_of_bytes hd.bytes o
  · rw [hflat']
    exact hfront

/-- An mbuf takes up room, so a buffer that counts none has none. -/
theorem Consistent.mb_eq_nil (hwf : Wf sb) (hc : Consistent sb) (h : sb.mbcnt = 0) :
    sb.mb = [] := by
  obtain hnil | ⟨rs, b, n, hmb⟩ := hwf.cases
  · exact hnil
  · have hspace : 0 < n.space := by
      rw [Mbuf.space]
      cases n.ext with
      | none => exact Nat.succ_pos _
      | some e => exact Nat.lt_of_lt_of_le (Nat.succ_pos _) (Nat.le_add_right MSIZE e.size)
    have hsum := hc.mbcnt
    rw [hmb, h, List.flatten_append, List.map_append, List.sum_append, List.flatten_cons,
      List.append_assoc, List.map_append, List.sum_append, List.cons_append, List.map_cons,
      List.sum_cons] at hsum
    omega

/-- A buffer of less than 2 GB is empty after one pass of `sbflush`. -/
theorem sbflush_bytes {fuel : Nat} (h : Stream mem sb) (hfuel : 1 ≤ fuel) (hcc : sb.cc < 2 ^ 31) :
    ∃ mem' sb', sbflush fuel mem sb = some (mem', sb') ∧ Stream mem' sb' ∧ sb'.mb = [] := by
  obtain ⟨fuel, rfl⟩ := Nat.exists_eq_succ_of_ne_zero (Nat.one_le_iff_ne_zero.mp hfuel)
  have hassert : ∀ {mem : Mem} {sb : Sockbuf}, Stream mem sb → sb.mb = [] →
      sb.mbcnt = 0 ∧ (sb.cc = 0 ∧ sb.datacc = 0 ∧ sb.mb = [] ∧ sb.mbtail = none
        ∧ sb.lastrecord = none) := by
    intro mem sb h hmb
    obtain ⟨hzero, hlast, htail⟩ := h.consistent.of_nil hmb
    injection hzero with hcc hrest
    injection hrest with hdatacc hmbcnt
    exact ⟨hmbcnt, hcc, hdatacc, hmb, htail, hlast⟩
  by_cases hcnt : sb.mbcnt = 0
  · have hmb := Consistent.mb_eq_nil h.wf h.consistent hcnt
    refine ⟨mem, sb, ?_, h, hmb⟩
    rw [sbflush, h.unlocked, sbflushLoop, if_pos hcnt, if_neg Bool.false_ne_true, Option.bind_some,
      if_pos (hassert h hmb).2]
  · have htoInt : toInt sb.cc = sb.cc := by
      rw [toInt, Int.bmod_def]
      omega
    obtain ⟨mem', sb', hdrop, h', hbytes, hfront⟩ := sbdrop_bytes h (le_of_eq htoInt)
    have hmb' : sb'.mb = [] := by
      rw [htoInt, Int.toNat_natCast, h.cc_eq, List.drop_length] at hbytes
      obtain hnil | ⟨b, n, hmb⟩ := h'.cases
      · exact hnil
      · exfalso
        have hflat : sb'.mb.flatten = b ++ [n] := by
          rw [hmb]
          exact List.append_nil _
        cases hb : b ++ [n] with
        | nil => exact absurd hb (List.concat_ne_nil n b)
        | cons m ms =>
          rw [hflat, hb] at hbytes hfront
          rw [content_cons, List.append_eq_nil_iff] at hbytes
          have hlen := length_view mem' m
          rw [hbytes.1] at hlen
          exact hfront m rfl hlen.symm
    refine ⟨mem', sb', ?_, h', hmb'⟩
    have hloop : sbflushLoop (fuel + 1) mem sb = some (mem', sb') := by
      rw [sbflushLoop, if_neg hcnt, hdrop, Option.bind_some]
      cases fuel with
      | zero => rw [sbflushLoop, if_pos (hassert h' hmb').1]
      | succ fuel => rw [sbflushLoop, if_pos (hassert h' hmb').1]
    rw [sbflush, h.unlocked, hloop, if_neg Bool.false_ne_true, Option.bind_some,
      if_pos (hassert h' hmb').2]

/-! ## Sequences of calls -/

/-- A call on a stream buffer, or something the rest of the kernel does to the memory in
between. `append` names the bytes `p` of the chain it hands over. -/
inductive Op where
  | append (chain : List Mbuf) (p : List UInt8)
  | drop (len : Int)
  | flush (fuel : Nat)
  | world (mem : Mem)

def op (s : Mem × Sockbuf) : Op → Option (Mem × Sockbuf)
  | .append chain _ => sbappendstream s.1 s.2 chain
  | .drop len => sbdrop s.1 s.2 len
  | .flush fuel => sbflush fuel s.1 s.2
  | .world mem => some (mem, s.2)

/-- The same call on a queue of bytes. -/
def fifo (q : List UInt8) : Op → List UInt8
  | .append _ p => q ++ p
  | .drop len => q.drop len.toNat
  | .flush _ => []
  | .world _ => q

/-- A chain handed over holds the bytes it is said to hold, and belongs to the caller; no
more is dropped than is there; and the rest of the kernel neither writes to the data in the
buffer nor miscounts the references to its clusters. -/
def Allowed (s : Mem × Sockbuf) : Op → Prop
  | .append chain p => Owned s.1 (s.2.mb.flatten ++ chain) ∧ content s.1 chain = p
  | .drop len => len ≤ s.2.cc
  | .flush fuel => 1 ≤ fuel
  | .world mem => (∀ m ∈ s.2.mb.flatten, view mem m = view s.1 m)
    ∧ ∀ buf, refCount buf s.2.mb.flatten ≤ mem.refs buf

/-- `(int)sb->sb_cc` is not negative where the buffer is flushed. -/
def FlushFits (s : Mem × Sockbuf) : Op → Prop
  | .flush _ => s.2.cc < 2 ^ 31
  | _ => True

def runOps : List Op → Mem × Sockbuf → Option (Mem × Sockbuf)
  | [], s => some s
  | o :: os, s => (op s o).bind (runOps os)

/-- Every call of a sequence is allowed in the state it is made in. -/
def AllOps (ok : Mem × Sockbuf → Op → Prop) : List Op → Mem × Sockbuf → Prop
  | [], _ => True
  | o :: os, s => ok s o ∧ ∀ s', op s o = some s' → AllOps ok os s'

theorem op_spec {s : Mem × Sockbuf} (h : Stream s.1 s.2) {o : Op} (hok : Allowed s o)
    (hfits : FlushFits s o) : ∃ s', op s o = some s' ∧ Stream s'.1 s'.2
      ∧ content s'.1 s'.2.mb.flatten = fifo (content s.1 s.2.mb.flatten) o := by
  cases o with
  | append chain p =>
    obtain ⟨mem', sb', hres, h', hbytes⟩ := sbappendstream_bytes h hok.1
    exact ⟨(mem', sb'), hres, h', hbytes.trans (by rw [hok.2, fifo])⟩
  | drop len =>
    obtain ⟨mem', sb', hres, h', hbytes, -⟩ := sbdrop_bytes h hok
    exact ⟨(mem', sb'), hres, h', hbytes⟩
  | flush fuel =>
    obtain ⟨mem', sb', hres, h', hmb⟩ := sbflush_bytes h hok hfits
    exact ⟨(mem', sb'), hres, h', by rw [hmb]; rfl⟩
  | world mem =>
    refine ⟨(mem, s.2), rfl, ?_, content_congr hok.1⟩
    exact ⟨h.wf, h.consistent, h.single, ⟨h.owned.nodup, hok.2, h.owned.fits⟩, h.unlocked⟩

theorem runOps_spec (os : List Op) : ∀ {s : Mem × Sockbuf}, Stream s.1 s.2 →
    AllOps (fun s o => Allowed s o ∧ FlushFits s o) os s →
    ∃ s', runOps os s = some s' ∧ Stream s'.1 s'.2
      ∧ content s'.1 s'.2.mb.flatten = os.foldl fifo (content s.1 s.2.mb.flatten) := by
  induction os with
  | nil =>
    intro s h _
    exact ⟨s, rfl, h, rfl⟩
  | cons o os ih =>
    intro s h hall
    obtain ⟨s₁, hstep, h₁, hbytes₁⟩ := op_spec h hall.1.1 hall.1.2
    obtain ⟨s', hrun, h', hbytes⟩ := ih h₁ (hall.2 s₁ hstep)
    refine ⟨s', ?_, h', ?_⟩
    · rw [runOps, hstep, Option.bind_some, hrun]
    · rw [hbytes, hbytes₁, List.foldl_cons]

/-- Any sequence of stream appends, drops and flushes comes to an end with the bytes of a
plain queue in the buffer, and their number in `sb_cc`. -/
theorem stream_is_fifo (os : List Op) (mem : Mem) (hiwat mbmax : Nat)
    (h : AllOps (fun s o => Allowed s o ∧ FlushFits s o) os (mem, .empty hiwat mbmax)) :
    ∃ mem' sb', runOps os (mem, .empty hiwat mbmax) = some (mem', sb')
      ∧ content mem' sb'.mb.flatten = os.foldl fifo []
      ∧ sb'.cc = (os.foldl fifo []).length := by
  obtain ⟨⟨mem', sb'⟩, hrun, h', hbytes⟩ := runOps_spec os (Stream.empty mem hiwat mbmax) h
  refine ⟨mem', sb', hrun, hbytes, ?_⟩
  rw [h'.cc_eq, hbytes]
  rfl

theorem AllOps.cons {ok : Mem × Sockbuf → Op → Prop} {o : Op} {os : List Op}
    {s s' : Mem × Sockbuf} (hok : ok s o) (hop : op s o = some s') (h : AllOps ok os s') :
    AllOps ok (o :: os) s := by
  refine ⟨hok, fun s₁ h₁ => ?_⟩
  obtain rfl : s' = s₁ := Option.some.inj (hop.symm.trans h₁)
  exact h

/-- Two mbufs, of which the second is copied into the first, and then a byte dropped. -/
theorem stream_is_fifo_pair : ∃ mem' sb',
    runOps [.append [dataMbuf 1 2, dataMbuf 2 1] [0, 0, 0], .drop 1, .flush 1]
        (zeroMem, .empty 16384 65536) = some (mem', sb')
      ∧ content mem' sb'.mb.flatten = [] ∧ sb'.cc = 0 := by
  have hown : Owned zeroMem [dataMbuf 1 2, dataMbuf 2 1] := by
    refine ⟨by decide, fun buf => Nat.zero_le _, fun m hm => ?_⟩
    obtain rfl | hm := List.mem_cons.mp hm
    · show 0 + 2 ≤ 224
      decide
    · obtain rfl := List.mem_singleton.mp hm
      show 0 + 1 ≤ 224
      decide
  refine stream_is_fifo _ zeroMem 16384 65536 (.cons ⟨⟨hown, rfl⟩, trivial⟩ rfl ?_)
  refine .cons ⟨?_, trivial⟩ rfl ?_
  · show (1 : Int) ≤ (3 : Nat)
    decide
  · refine .cons ⟨le_rfl, ?_⟩ rfl trivial
    show 2 < 2 ^ 31
    decide

/-- 2 GB of data in an external buffer. -/
def hugeMbuf : Mbuf := ⟨1, .data, 2 ^ 31, 0, false, none, some ⟨7, 2 ^ 31, false⟩⟩

/-- With 2 GB in the buffer `(int)sb->sb_cc` is negative, `sbdrop` drops nothing, and
`sbflush` goes round for ever. -/
theorem flush_of_2GB_stuck :
    Allowed (zeroMem, .empty 16384 65536) (.append [hugeMbuf] (content zeroMem [hugeMbuf]))
      ∧ ∀ fuel, runOps [.append [hugeMbuf] (content zeroMem [hugeMbuf]), .flush fuel]
          (zeroMem, .empty 16384 65536) = none := by
  refine ⟨⟨⟨by decide, fun buf => ?_, fun m hm => ?_⟩, rfl⟩, fun fuel => ?_⟩
  · exact List.countP_le_length
  · obtain rfl := List.mem_singleton.mp hm
    exact le_rfl
  · have happend : op (zeroMem, .empty 16384 65536)
        (.append [hugeMbuf] (content zeroMem [hugeMbuf]))
        = some (zeroMem, ⟨[[hugeMbuf]], 2 ^ 31, 2 ^ 31, 256 + 2 ^ 31, 16384, 65536, false,
          some 1, some 1⟩) := rfl
    have hloop : ∀ fuel, sbflushLoop fuel zeroMem ⟨[[hugeMbuf]], 2 ^ 31, 2 ^ 31, 256 + 2 ^ 31,
        16384, 65536, false, some 1, some 1⟩ = none := by
      intro fuel
      induction fuel with
      | zero => rfl
      | succ fuel ih => exact ih
    rw [runOps, happend, Option.bind_some, runOps, op, sbflush, hloop]
    rfl

end Obsd.Sb
