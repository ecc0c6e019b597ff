import Mathlib

/-!
# The collector of descriptors in flight

`unp_gc` finds the sockets that nothing but messages refers to. It is a
mark phase over the table of open files: a file with a reference outside
messages is marked, the receive buffer of a marked Unix-domain socket is
scanned, and a socket found there is *deferred* to be marked when the walk
over the table next comes to it. `unp_defer` counts the deferred files and
the walk is repeated while there are any. What is left unmarked with all
of its references in messages is garbage, and the sockets among it are
flushed.

The main facts are `markLoop_spec`, that the loop ends and marks exactly
what is reachable through receive buffers, and what follows from it: the
connections waiting in an accept queue are not scanned, so the collector is
exact if and only if every socket carried there is also reachable
otherwise.
-/

namespace Obsd.Unp

/-! ## Messages, sockets and files -/

/-- `m_type`, as far as the scan distinguishes it. -/
inductive MType where
  | data
  | soname
  | control
deriving DecidableEq, Repr

/-- `SOL_SOCKET`. -/
def solSocket : Nat := 0xffff

/-- `SCM_RIGHTS`. -/
def scmRights : Nat := 1

/-- `sizeof(struct cmsghdr)`. -/
def sizeofCmsghdr : Nat := 12

/-- `CMSG_ALIGN(sizeof(struct cmsghdr))`. -/
def cmsgAligned : Nat := 16

/-- `sizeof(struct file *)`. -/
def sizeofPtr : Nat := 8

/-- An mbuf: for a control message its header and, at `CMSG_DATA`, the
`struct file` pointers in it. -/
structure Mbuf (F : Type) where
  mType : MType
  mLen : Nat
  cmsgLen : Nat
  cmsgLevel : Nat
  cmsgType : Nat
  cmsgData : List (Option F)

namespace Mbuf

variable {F : Type}

/-- The mbuf is a control message that carries access rights. -/
def isRights (m : Mbuf F) : Bool :=
  m.mType = .control && sizeofCmsghdr ≤ m.mLen && m.cmsgLevel = solSocket
    && m.cmsgType = scmRights

/-- `qfds`. -/
def qfds (m : Mbuf F) : Nat :=
  (m.cmsgLen - cmsgAligned) / sizeofPtr

/-- The pointers the scan finds in the mbuf. -/
def rights (m : Mbuf F) : List (Option F) :=
  if m.isRights then m.cmsgData.take m.qfds else []

end Mbuf

/-- A socket buffer: its records, each a chain of mbufs. A record carries at
most one set of rights, since a send has one control mbuf. -/
structure SockBuf (F : Type) where
  sbMb : List (List (Mbuf F))
  one_rights : ∀ r ∈ sbMb, (r.filter Mbuf.isRights).length ≤ 1

namespace SockBuf

variable {F : Type}

/-- Everything carried in the messages of a buffer. -/
def carried (sb : SockBuf F) : List (Option F) :=
  sb.sbMb.flatMap fun r => r.flatMap Mbuf.rights

def empty : SockBuf F := ⟨[], by simp⟩

end SockBuf

/-- A socket: whether its protocol is of `unixdomain` and has `PR_RIGHTS`,
its receive buffer, and those of the connections in its accept queue. -/
structure Socket (F : Type) where
  unixdomain : Bool
  prRights : Bool
  soRcv : SockBuf F
  soQ : List (SockBuf F)

/-- `f_type`. -/
inductive DType where
  | vnode
  | socket
  | pipe
  | kqueue
  | crypto
  | systrace
deriving DecidableEq, Repr

/-- A `struct file`. `fData` is what a file of type `DTYPE_SOCKET` points
at. -/
structure File (F : Type) where
  fType : DType
  fData : Option (Socket F)
  fCount : Nat
  fMsgcount : Nat

/-- The socket of a file, if it has one. -/
def File.socket? {F : Type} (f : File F) : Option (Socket F) :=
  if f.fType = .socket then f.fData else none

/-- The table of open files. The references in messages are among all
references; what a message carries is an open file that is counted as
carried; and only sockets that pass rights have any. -/
structure Table (F : Type) where
  filehead : List F
  file : F → File F
  msgcount_le : ∀ f ∈ filehead, (file f).fMsgcount ≤ (file f).fCount
  carried_open : ∀ f ∈ filehead, ∀ so, (file f).socket? = some so →
    ∀ sb ∈ so.soRcv :: so.soQ, ∀ g, some g ∈ sb.carried →
      g ∈ filehead ∧ 0 < (file g).fMsgcount
  carried_unix : ∀ f ∈ filehead, ∀ so, (file f).socket? = some so →
    (so.unixdomain && so.prRights) = false → ∀ g, some g ∉ so.soRcv.carried

/-! ## The collector -/

variable {F : Type}

/-- The state of the mark phase: the files with `FMARK`, those with `FDEFER`
and `unp_defer`. -/
structure Gc (F : Type) where
  mark : Finset F
  defer : Finset F
  unpDefer : Int

section

variable [DecidableEq F]

/-- `unp_mark`. -/
def unpMark (t : Table F) (s : Gc F) : Option F → Gc F
  | none => s
  | some f =>
      if f ∈ s.mark then s
      else if f ∈ s.defer then s
      else if (t.file f).fType = .socket then
        { s with unpDefer := s.unpDefer + 1, defer := insert f s.defer }
      else { s with mark := insert f s.mark }

/-- `unp_scan`: of each record the first mbuf that carries rights. -/
def unpScan (op : Gc F → Option F → Gc F) (m0 : List (List (Mbuf F))) (s : Gc F) : Gc F :=
  m0.foldl (fun s r => match r.find? Mbuf.isRights with
    | none => s
    | some m => (m.cmsgData.take m.qfds).foldl op s) s

/-- What the walk does with a file once it has decided to mark it. -/
def markFile (t : Table F) (s : Gc F) (f : F) : Gc F :=
  let s := { s with mark := insert f s.mark }
  match (t.file f).socket? with
  | none => s
  | some so =>
      if so.unixdomain && so.prRights then unpScan (unpMark t) so.soRcv.sbMb s else s

/-- The body of the walk over `filehead`. -/
def visit (t : Table F) (s : Gc F) (f : F) : Gc F :=
  if f ∈ s.defer then
    markFile t { s with defer := s.defer.erase f, unpDefer := s.unpDefer - 1 } f
  else if (t.file f).fCount = 0 then s
  else if f ∈ s.mark then s
  else if (t.file f).fCount = (t.file f).fMsgcount then s
  else markFile t s f

/-- One walk over `filehead`. -/
def walk (t : Table F) (s : Gc F) : Gc F :=
  t.filehead.foldl (visit t) s

/-- The loop around the walk, of at most so many turns. -/
def markLoop (t : Table F) : Nat → Gc F → Option (Gc F)
  | 0, _ => none
  | n + 1, s =>
      let s := walk t s
      if s.unpDefer ≠ 0 then markLoop t n s else some s

/-- The files the collector takes an extra reference to. -/
def extraRef (t : Table F) (s : Gc F) : List F :=
  t.filehead.filter fun f =>
    (t.file f).fCount ≠ 0 && ((t.file f).fCount = (t.file f).fMsgcount && f ∉ s.mark)

/-- `unp_gc`, up to the files whose sockets it flushes. `unpGcing` is set in
a call from inside another one. -/
def unpGc (t : Table F) (unpGcing : Bool) (turns : Nat) : Option (List F) :=
  if unpGcing then some []
  else (markLoop t turns ⟨∅, ∅, 0⟩).map fun s =>
    (extraRef t s).filter fun f => (t.file f).socket?.isSome

end

/-! ## Reachability -/

/-- The file has a reference outside messages. -/
def Table.External (t : Table F) (f : F) : Prop :=
  f ∈ t.filehead ∧ (t.file f).fMsgcount < (t.file f).fCount

/-- `g` is carried in a message on the receive buffer of the socket `f`. -/
def Table.InRcv (t : Table F) (f g : F) : Prop :=
  ∃ so, (t.file f).socket? = some so ∧ some g ∈ so.soRcv.carried

/-- `g` is carried in a message on the receive buffer of a connection in the
accept queue of `f`. -/
def Table.InQueue (t : Table F) (f g : F) : Prop :=
  ∃ so, (t.file f).socket? = some so ∧ ∃ sb ∈ so.soQ, some g ∈ sb.carried

/-- The file can be reached from one with a reference outside messages. -/
def Table.Reachable (t : Table F) (f : F) : Prop :=
  ∃ r, t.External r ∧ Relation.ReflTransGen (fun f g => t.InRcv f g ∨ t.InQueue f g) r f

/-- The same without going through an accept queue. -/
def Table.Direct (t : Table F) (f : F) : Prop :=
  ∃ r, t.External r ∧ Relation.ReflTransGen t.InRcv r f

theorem Table.Direct.of_external {t : Table F} {f : F} (h : t.External f) : t.Direct f :=
  ⟨f, h, .refl⟩

theorem Table.Direct.tail {t : Table F} {f g : F} (h : t.Direct f) (hg : t.InRcv f g) :
    t.Direct g := by
  obtain ⟨r, hr, hpath⟩ := h
  exact ⟨r, hr, hpath.tail hg⟩

theorem Table.Direct.reachable {t : Table F} {f : F} (h : t.Direct f) : t.Reachable f := by
  obtain ⟨r, hr, hpath⟩ := h
  exact ⟨r, hr, Relation.ReflTransGen.mono (fun _ _ => Or.inl) r f hpath⟩

/-- A set that holds the files with references outside messages and is closed
under receive buffers holds everything that is directly reachable. -/
theorem Table.Direct.mem_of_closed {t : Table F} {S : Finset F}
    (hroot : ∀ r, t.External r → r ∈ S) (hclosed : ∀ f ∈ S, ∀ g, t.InRcv f g → g ∈ S)
    {f : F} (h : t.Direct f) : f ∈ S := by
  obtain ⟨r, hr, hpath⟩ := h
  induction hpath with
  | refl => exact hroot r hr
  | tail _ hg ih => exact hclosed _ ih _ hg

theorem Table.Direct.mem_filehead {t : Table F} {f : F} (h : t.Direct f) : f ∈ t.filehead := by
  obtain ⟨r, hr, hpath⟩ := h
  induction hpath with
  | refl => exact hr.1
  | tail _ hg ih =>
      obtain ⟨so, hso, hmem⟩ := hg
      exact (t.carried_open _ ih so hso _ List.mem_cons_self _ hmem).1

/-! ## The scan of a buffer -/

/-- In a record with at most one set of rights the first is all there is. -/
theorem flatMap_rights {r : List (Mbuf F)} (h : (r.filter Mbuf.isRights).length ≤ 1) :
    r.flatMap Mbuf.rights = match r.find? Mbuf.isRights with
      | none => []
      | some m => m.cmsgData.take m.qfds := by
  induction r with
  | nil => rfl
  | cons m r ih =>
      by_cases hm : m.isRights
      · have hnone : ∀ m' ∈ r, Mbuf.rights m' = [] := by
          intro m' hm'
          have : r.filter Mbuf.isRights = [] := by
            rw [List.filter_cons_of_pos hm, List.length_cons] at h
            exact List.eq_nil_of_length_eq_zero (by omega)
          exact if_neg (List.filter_eq_nil_iff.mp this m' hm')
        rw [List.find?_cons_of_pos hm, List.flatMap_cons, List.flatMap_eq_nil_iff.mpr hnone,
          List.append_nil]
        exact if_pos hm
      · rw [List.find?_cons_of_neg hm, List.flatMap_cons, Mbuf.rights, if_neg hm, List.nil_append]
        exact ih (by rwa [List.filter_cons_of_neg hm] at h)

/-- The scan applies its operation to everything the buffer carries, in
order. -/
theorem unpScan_eq (op : Gc F → Option F → Gc F) (sb : SockBuf F) (s : Gc F) :
    unpScan op sb.sbMb s = sb.carried.foldl op s := by
  obtain ⟨rs, hone⟩ := sb
  simp only [unpScan, SockBuf.carried]
  induction rs generalizing s with
  | nil => rfl
  | cons r rs ih =>
      rw [List.foldl_cons, List.flatMap_cons, List.foldl_append,
        ih _ (fun r' hr' => hone r' (List.mem_cons_of_mem _ hr')),
        flatMap_rights (hone r List.mem_cons_self)]
      split <;> rfl

/-! ## Marking what a buffer carries -/

/-- `FMARK` and `FDEFER` are never both set, and `unp_defer` is the number of
deferred files. -/
structure Gc.Flags (s : Gc F) : Prop where
  disjoint : ∀ f ∈ s.defer, f ∉ s.mark
  defer_count : s.unpDefer = s.defer.card

/-- `s'` is `s` after files among `xs` have been marked or deferred, and all
of them are one or the other. -/
structure Marking (t : Table F) (xs : List (Option F)) (s s' : Gc F) : Prop where
  flags : s.Flags → s'.Flags
  mark_subset : s.mark ⊆ s'.mark
  defer_subset : s.defer ⊆ s'.defer
  new_mark : ∀ f ∈ s'.mark, f ∈ s.mark ∨ some f ∈ xs ∧ (t.file f).fType ≠ .socket
  new_defer : ∀ f ∈ s'.defer, f ∈ s.defer ∨ some f ∈ xs
  covered : ∀ f, some f ∈ xs → f ∈ s'.mark ∨ f ∈ s'.defer

theorem Marking.append {t : Table F} {xs ys : List (Option F)} {s s₁ s₂ : Gc F}
    (h₁ : Marking t xs s s₁) (h₂ : Marking t ys s₁ s₂) : Marking t (xs ++ ys) s s₂ where
  flags h := h₂.flags (h₁.flags h)
  mark_subset := h₁.mark_subset.trans h₂.mark_subset
  defer_subset := h₁.defer_subset.trans h₂.defer_subset
  new_mark f hf := by
    rcases h₂.new_mark f hf with hf | ⟨hf, htype⟩
    · rcases h₁.new_mark f hf with hf | ⟨hf, htype⟩
      · exact .inl hf
      · exact .inr ⟨List.mem_append_left _ hf, htype⟩
    · exact .inr ⟨List.mem_append_right _ hf, htype⟩
  new_defer f hf := by
    rcases h₂.new_defer f hf with hf | hf
    · exact (h₁.new_defer f hf).imp id (List.mem_append_left _)
    · exact .inr (List.mem_append_right _ hf)
  covered f hf := by
    rcases List.mem_append.mp hf with hf | hf
    · exact (h₁.covered f hf).imp (fun h => h₂.mark_subset h) fun h => h₂.defer_subset h
    · exact h₂.covered f hf

section

variable [DecidableEq F]

theorem unpMark_marking (t : Table F) (s : Gc F) (x : Option F) :
    Marking t [x] s (unpMark t s x) := by
  cases x with
  | none => exact ⟨id, fun _ h => h, fun _ h => h, fun _ => .inl, fun _ => .inl, by simp⟩
  | some f =>
      simp only [unpMark]
      split_ifs with hmark hdefer htype
      · refine ⟨id, fun _ h => h, fun _ h => h, fun _ => .inl, fun _ => .inl, ?_⟩
        rintro g hg
        obtain rfl : g = f := by simpa using hg
        exact .inl hmark
      · refine ⟨id, fun _ h => h, fun _ h => h, fun _ => .inl, fun _ => .inl, ?_⟩
        rintro g hg
        obtain rfl : g = f := by simpa using hg
        exact .inr hdefer
      · refine ⟨fun h => ⟨?_, ?_⟩, fun _ h => h, Finset.subset_insert _ _, fun _ => .inl, ?_, ?_⟩
        · intro g hg
          rcases Finset.mem_insert.mp hg with rfl | hg
          · exact hmark
          · exact h.disjoint g hg
        · rw [Finset.card_insert_of_notMem hdefer, h.defer_count]
          rfl
        · intro g hg
          rcases Finset.mem_insert.mp hg with rfl | hg
          · exact .inr List.mem_cons_self
          · exact .inl hg
        · intro g hg
          obtain rfl : g = f := by simpa using hg
          exact .inr (Finset.mem_insert_self _ _)
      · refine ⟨fun h => ⟨?_, h.defer_count⟩, Finset.subset_insert _ _, fun _ h => h, ?_,
          fun _ => .inl, ?_⟩
        · intro g hg
          rw [Finset.mem_insert, not_or]
          exact ⟨fun e => hdefer (e ▸ hg), h.disjoint g hg⟩
        · intro g hg
          rcases Finset.mem_insert.mp hg with rfl | hg
          · exact .inr ⟨List.mem_cons_self, htype⟩
          · exact .inl hg
        · intro g hg
          obtain rfl : g = f := by simpa using hg
          exact .inl (Finset.mem_insert_self _ _)

theorem foldl_unpMark (t : Table F) (xs : List (Option F)) (s : Gc F) :
    Marking t xs s (xs.foldl (unpMark t) s) := by
  induction xs generalizing s with
  | nil => exact ⟨id, fun _ h => h, fun _ h => h, fun _ => .inl, fun _ => .inl, by simp⟩
  | cons x xs ih => exact (unpMark_marking t s x).append (ih (unpMark t s x))

end

/-! ## The walk -/

/-- What holds between two visits: the flags agree with `unp_defer`, every
flagged file is reachable, a deferred file is a socket, and what a marked
file's buffer carries is marked or deferred. -/
structure Gc.Inv (t : Table F) (s : Gc F) : Prop where
  flags : s.Flags
  mark_direct : ∀ f ∈ s.mark, t.Direct f
  defer_direct : ∀ f ∈ s.defer, t.Direct f
  scanned : ∀ f ∈ s.mark, ∀ g, t.InRcv f g → g ∈ s.mark ∨ g ∈ s.defer

theorem inv_start (t : Table F) : (Gc.mk ∅ ∅ 0 : Gc F).Inv t where
  flags := ⟨by simp, by simp⟩
  mark_direct := by simp
  defer_direct := by simp
  scanned := by simp

/-- What a visit of `f` achieves. -/
structure Visited (t : Table F) (f : F) (s s' : Gc F) : Prop where
  inv : s'.Inv t
  mark_subset : s.mark ⊆ s'.mark
  defer_subset : ∀ g ∈ s.defer, g ∈ s'.mark ∨ g ∈ s'.defer
  marks : f ∈ s.defer ∨ t.External f → f ∈ s'.mark

theorem inRcv_of_not_socket {t : Table F} {f g : F} (h : (t.file f).fType ≠ .socket) :
    ¬ t.InRcv f g := by
  rintro ⟨so, hso, -⟩
  rw [File.socket?, if_neg h] at hso
  cases hso

theorem Gc.Inv.visited_self {t : Table F} {s : Gc F} {f : F} (hinv : s.Inv t)
    (h : f ∈ s.defer ∨ t.External f → f ∈ s.mark) : Visited t f s s :=
  ⟨hinv, fun _ h => h, fun _ => .inr, h⟩

section

variable [DecidableEq F]

/-- Marking a reachable file and scanning its buffer. The file itself is not
deferred when this happens. -/
theorem markFile_marking {t : Table F} {s : Gc F} {f : F} (hopen : f ∈ t.filehead) :
    ∃ xs, Marking t xs { s with mark := insert f s.mark } (markFile t s f)
      ∧ ∀ g, some g ∈ xs ↔ t.InRcv f g := by
  simp only [markFile]
  split
  · rename_i hnone
    refine ⟨[], foldl_unpMark t [] _, ?_⟩
    intro g
    simp [Table.InRcv, hnone]
  · rename_i so hso
    have hiff : ∀ g, some g ∈ so.soRcv.carried ↔ t.InRcv f g := by
      intro g
      simp [Table.InRcv, hso]
    split
    · rw [unpScan_eq]
      exact ⟨_, foldl_unpMark t so.soRcv.carried _, hiff⟩
    · rename_i hunix
      refine ⟨[], foldl_unpMark t [] _, ?_⟩
      intro g
      have hno := t.carried_unix f hopen so hso (by simpa using hunix) g
      simpa [← hiff g] using hno

theorem markFile_visited {t : Table F} {s s₀ : Gc F} {f : F} (hf : t.Direct f)
    (hinv : s.Inv t) (hflags : s₀.Flags) (hmark : s₀.mark = s.mark)
    (hdefer : s₀.defer = s.defer.erase f) : Visited t f s (markFile t s₀ f) := by
  obtain ⟨xs, hm, hxs⟩ := markFile_marking (s := s₀) hf.mem_filehead
  have hnot : f ∉ s₀.defer := by simp [hdefer]
  have hsub : insert f s.mark ⊆ (markFile t s₀ f).mark := hmark ▸ hm.mark_subset
  have hself : f ∈ (markFile t s₀ f).mark := hsub (Finset.mem_insert_self _ _)
  have hkeep : ∀ g ∈ s.defer, g ∈ (markFile t s₀ f).mark ∨ g ∈ (markFile t s₀ f).defer := by
    intro g hg
    by_cases hgf : g = f
    · exact .inl (hgf ▸ hself)
    · exact .inr (hm.defer_subset (by simp [hdefer, hgf, hg]))
  refine ⟨⟨hm.flags ⟨?_, hflags.defer_count⟩, ?_, ?_, ?_⟩, fun g hg => ?_, hkeep, fun _ => hself⟩
  · intro g hg
    rw [Finset.mem_insert, not_or]
    exact ⟨fun e => hnot (e ▸ hg), hflags.disjoint g hg⟩
  · intro g hg
    rcases hm.new_mark g hg with hg | ⟨hg, -⟩
    · rcases Finset.mem_insert.mp hg with rfl | hg
      · exact hf
      · exact hinv.mark_direct g (hmark ▸ hg)
    · exact hf.tail ((hxs g).mp hg)
  · intro g hg
    rcases hm.new_defer g hg with hg | hg
    · have hg : g ∈ s.defer.erase f := hdefer ▸ hg
      exact hinv.defer_direct g (Finset.mem_of_mem_erase hg)
    · exact hf.tail ((hxs g).mp hg)
  · -- a newly marked file is the visited one, or is no socket and carries nothing
    intro g hg k hk
    rcases hm.new_mark g hg with hg | ⟨-, htype⟩
    · rcases Finset.mem_insert.mp hg with rfl | hg
      · exact hm.covered k ((hxs k).mpr hk)
      · rcases hinv.scanned g (hmark ▸ hg) k hk with hk | hk
        · exact .inl (hsub (Finset.mem_insert_of_mem hk))
        · exact hkeep k hk
    · exact absurd hk (inRcv_of_not_socket htype)
  · exact hsub (Finset.mem_insert_of_mem hg)

theorem visit_visited {t : Table F} {s : Gc F} {f : F} (hopen : f ∈ t.filehead)
    (hinv : s.Inv t) : Visited t f s (visit t s f) := by
  rw [visit]
  split_ifs with hdefer hzero hmark hall
  · refine markFile_visited (hinv.defer_direct f hdefer) hinv ⟨?_, ?_⟩ rfl rfl
    · intro g hg
      exact hinv.flags.disjoint g (Finset.mem_of_mem_erase hg)
    · have hcard := Finset.card_erase_add_one hdefer
      have hcount := hinv.flags.defer_count
      simp only
      omega
  · refine hinv.visited_self ?_
    rintro (h | ⟨-, h⟩)
    · exact absurd h hdefer
    · omega
  · exact hinv.visited_self fun _ => hmark
  · refine hinv.visited_self ?_
    rintro (h | ⟨-, h⟩)
    · exact absurd h hdefer
    · omega
  · have hle := t.msgcount_le f hopen
    have hf : t.External f := ⟨hopen, by omega⟩
    exact markFile_visited (.of_external hf) hinv hinv.flags rfl
      (Finset.erase_eq_of_notMem hdefer).symm

/-- A walk keeps the invariant and every mark, and marks the files of the
walk that were deferred before it or have references outside messages. -/
theorem foldl_visit {t : Table F} (fs : List F) {s : Gc F} (hopen : ∀ f ∈ fs, f ∈ t.filehead)
    (hinv : s.Inv t) :
    (fs.foldl (visit t) s).Inv t ∧ s.mark ⊆ (fs.foldl (visit t) s).mark
      ∧ ∀ f ∈ fs, f ∈ s.defer ∨ t.External f → f ∈ (fs.foldl (visit t) s).mark := by
  induction fs generalizing s with
  | nil => exact ⟨hinv, fun _ h => h, by simp⟩
  | cons g fs ih =>
      have hv := visit_visited (hopen g List.mem_cons_self) hinv
      obtain ⟨hinv', hsub, hmarks⟩ :=
        ih (fun f hf => hopen f (List.mem_cons_of_mem _ hf)) hv.inv
      refine ⟨hinv', hv.mark_subset.trans hsub, ?_⟩
      intro f hf hwhy
      rcases List.mem_cons.mp hf with rfl | hf
      · exact hsub (hv.marks hwhy)
      · rcases hwhy with hwhy | hwhy
        · rcases hv.defer_subset f hwhy with hmark | hdefer
          · exact hsub hmark
          · exact hmarks f hf (.inl hdefer)
        · exact hmarks f hf (.inr hwhy)

/-! ## The loop -/

/-- A walk that begins with a deferred file marks one more. -/
theorem card_mark_lt_walk {t : Table F} {s : Gc F} (hinv : s.Inv t) (h : s.unpDefer ≠ 0) :
    s.mark.card < (walk t s).mark.card := by
  have hcount := hinv.flags.defer_count
  obtain ⟨f, hf⟩ : s.defer.Nonempty := by
    rw [← Finset.card_pos]
    omega
  obtain ⟨-, hsub, hmarks⟩ := foldl_visit t.filehead (fun _ h => h) hinv
  refine Finset.card_lt_card ⟨hsub, fun hback => hinv.flags.disjoint f hf (hback ?_)⟩
  exact hmarks f (hinv.defer_direct f hf).mem_filehead (.inl hf)

theorem card_mark_le {t : Table F} {s : Gc F} (hinv : s.Inv t) :
    s.mark.card ≤ t.filehead.length := by
  have hsub : s.mark ⊆ t.filehead.toFinset := fun f hf =>
    List.mem_toFinset.mpr (hinv.mark_direct f hf).mem_filehead
  exact (Finset.card_le_card hsub).trans (List.toFinset_card_le _)

/-- A walk that leaves nothing deferred leaves exactly the reachable files
marked. -/
theorem mark_walk_iff {t : Table F} {s : Gc F} (hinv : s.Inv t) (hdone : (walk t s).unpDefer = 0)
    (f : F) : f ∈ (walk t s).mark ↔ t.Direct f := by
  obtain ⟨hinv', -, hmarks⟩ := foldl_visit t.filehead (fun _ h => h) hinv
  have hempty : (walk t s).defer = ∅ := by
    have hcount : (walk t s).unpDefer = _ := hinv'.flags.defer_count
    rw [hdone] at hcount
    exact Finset.card_eq_zero.mp (Int.ofNat_eq_zero.mp hcount.symm)
  refine ⟨hinv'.mark_direct f, fun h => h.mem_of_closed ?_ ?_⟩
  · intro r hr
    exact hmarks r hr.1 (.inr hr)
  · intro g hg k hk
    rcases hinv'.scanned g hg k hk with hk | hk
    · exact hk
    · have hk : k ∈ (walk t s).defer := hk
      rw [hempty] at hk
      exact absurd hk (Finset.notMem_empty k)

/-- While files are deferred every turn marks one more of them, so the loop
is over after as many turns as there are unmarked files. -/
theorem markLoop_of_deferred {t : Table F} (n : Nat) {s : Gc F} (hinv : s.Inv t)
    (hdefer : s.unpDefer ≠ 0) (hn : t.filehead.length < n + s.mark.card) :
    ∃ s', markLoop t n s = some s' ∧ ∀ f, f ∈ s'.mark ↔ t.Direct f := by
  induction n generalizing s with
  | zero =>
      have hle := card_mark_le hinv
      omega
  | succ n ih =>
      rw [markLoop]
      split
      · rename_i hmore
        have hlt := card_mark_lt_walk hinv hdefer
        exact ih (foldl_visit t.filehead (fun _ h => h) hinv).1 hmore (by omega)
      · rename_i hdone
        exact ⟨_, rfl, mark_walk_iff hinv (not_not.mp hdone)⟩

/-- The mark phase ends, and marks the files that are reachable through
receive buffers. -/
theorem markLoop_spec (t : Table F) (n : Nat) (hn : t.filehead.length + 2 ≤ n) :
    ∃ s, markLoop t n ⟨∅, ∅, 0⟩ = some s ∧ ∀ f, f ∈ s.mark ↔ t.Direct f := by
  obtain ⟨n, rfl⟩ := Nat.exists_eq_add_of_lt hn
  rw [markLoop]
  split
  · rename_i hmore
    exact markLoop_of_deferred _ (foldl_visit t.filehead (fun _ h => h) (inv_start t)).1 hmore
      (by omega)
  · rename_i hdone
    exact ⟨_, rfl, mark_walk_iff (inv_start t) (not_not.mp hdone)⟩

/-! ## What is flushed -/

/-- The collector ends and flushes the sockets in use that are not reachable
through receive buffers. -/
theorem unpGc_spec (t : Table F) (n : Nat) (hn : t.filehead.length + 2 ≤ n) :
    ∃ fs, unpGc t false n = some fs ∧ ∀ f, f ∈ fs ↔ f ∈ t.filehead ∧ (t.file f).fCount ≠ 0
      ∧ (t.file f).socket?.isSome ∧ ¬ t.Direct f := by
  obtain ⟨s, hs, hmark⟩ := markLoop_spec t n hn
  refine ⟨_, by rw [unpGc, hs]; rfl, fun f => ?_⟩
  simp only [extraRef, List.mem_filter, Bool.and_eq_true, decide_eq_true_eq, hmark]
  constructor
  · rintro ⟨⟨hopen, hzero, -, hdirect⟩, hso⟩
    exact ⟨hopen, hzero, hso, hdirect⟩
  · rintro ⟨hopen, hzero, hso, hdirect⟩
    have hle := t.msgcount_le f hopen
    -- an unreachable file has no reference outside messages
    have hext : ¬ (t.file f).fMsgcount < (t.file f).fCount :=
      fun h => hdirect (.of_external ⟨hopen, h⟩)
    exact ⟨⟨hopen, hzero, by omega, hdirect⟩, hso⟩

/-- The collector, given enough turns, returns, and the files whose sockets
it flushes are those in use that are not reachable. An entry of the table
whose count is zero is being closed, and `closef` flushes it. -/
def Table.Exact (t : Table F) : Prop :=
  ∀ n, t.filehead.length + 2 ≤ n →
    ∃ fs, unpGc t false n = some fs ∧ ∀ f, f ∈ fs ↔ f ∈ t.filehead ∧ (t.file f).fCount ≠ 0
      ∧ (t.file f).socket?.isSome ∧ ¬ t.Reachable f

end

/-- Every socket carried on a connection that waits in the accept queue of a
reachable socket is also reachable without going through an accept queue. -/
def Table.AcceptCovered (t : Table F) : Prop :=
  ∀ l, t.Direct l → ∀ g, t.InQueue l g → (t.file g).socket?.isSome → t.Direct g

/-- Where the accept queues are covered, a reachable socket is reachable
without them. A file that is no socket may be carried in an accept queue
only, but nothing is reached through it. -/
theorem Table.AcceptCovered.direct {t : Table F} (h : t.AcceptCovered) {f : F}
    (hf : t.Reachable f) (hso : (t.file f).socket?.isSome) : t.Direct f := by
  obtain ⟨r, hr, hpath⟩ := hf
  induction hpath with
  | refl => exact .of_external hr
  | tail _ hstep ih =>
      rcases hstep with ⟨so, hl, hmem⟩ | ⟨so, hl, hmem⟩
      · exact (ih (Option.isSome_of_mem hl)).tail ⟨so, hl, hmem⟩
      · exact h _ (ih (Option.isSome_of_mem hl)) _ ⟨so, hl, hmem⟩ hso

/-- What an accept queue of a reachable socket carries is in use. -/
theorem Table.Direct.queued_open {t : Table F} {l g : F} (hl : t.Direct l)
    (hg : t.InQueue l g) : g ∈ t.filehead ∧ (t.file g).fCount ≠ 0 := by
  obtain ⟨so, hso, sb, hsb, hmem⟩ := hg
  obtain ⟨hopen, hpos⟩ :=
    t.carried_open l hl.mem_filehead so hso sb (List.mem_cons_of_mem _ hsb) g hmem
  have hle := t.msgcount_le g hopen
  exact ⟨hopen, by omega⟩

/-- The collector is exact if and only if the accept queues are covered: it
does not scan the connections that wait there. -/
theorem unpGc_exact_iff [DecidableEq F] (t : Table F) : t.Exact ↔ t.AcceptCovered := by
  constructor
  · intro hexact l hl g hg hso
    obtain ⟨fs, hrun, hfs⟩ := hexact _ le_rfl
    obtain ⟨fs', hrun', hfs'⟩ := unpGc_spec t _ le_rfl
    obtain rfl : fs = fs' := Option.some.inj (hrun.symm.trans hrun')
    obtain ⟨hopen, hcount⟩ := hl.queued_open hg
    obtain ⟨r, hr, hpath⟩ := hl.reachable
    by_contra hdirect
    have hmem : g ∈ fs := (hfs' g).mpr ⟨hopen, hcount, hso, hdirect⟩
    exact ((hfs g).mp hmem).2.2.2 ⟨r, hr, hpath.tail (.inr hg)⟩
  · intro hcov n hn
    obtain ⟨fs, hrun, hfs⟩ := unpGc_spec t n hn
    refine ⟨fs, hrun, fun f => (hfs f).trans ?_⟩
    constructor
    · rintro ⟨hopen, hcount, hso, hdirect⟩
      exact ⟨hopen, hcount, hso, fun h => hdirect (hcov.direct h hso)⟩
    · rintro ⟨hopen, hcount, hso, hreach⟩
      exact ⟨hopen, hcount, hso, fun h => hreach h.reachable⟩

/-- A message with the rights to one file. -/
def rightsTo (f : F) : SockBuf F where
  sbMb := [[⟨.control, 24, 24, solSocket, scmRights, [some f]⟩]]
  one_rights r hr := by
    rw [List.mem_singleton.mp hr]
    exact List.length_filter_le _ _

theorem carried_rightsTo (f : F) : (rightsTo f).carried = [some f] := by
  simp [SockBuf.carried, rightsTo, Mbuf.rights, Mbuf.isRights, Mbuf.qfds, sizeofCmsghdr,
    cmsgAligned, sizeofPtr]

/-- A Unix-domain socket that one descriptor refers to. -/
def unixSocket (soRcv : SockBuf F) (soQ : List (SockBuf F)) : File F :=
  ⟨.socket, some ⟨true, true, soRcv, soQ⟩, 1, 0⟩

/-- A listening socket `0` that a process holds open, with one connection
waiting in its accept queue; the peer of the connection has sent it the
socket `1` and closed its own descriptor. -/
def queuedRights : Table Nat where
  filehead := [0, 1]
  file f := if f = 0 then unixSocket .empty [rightsTo 1]
    else { unixSocket .empty [] with fMsgcount := 1 }
  msgcount_le := by decide
  carried_open f hf so hso sb hsb g hg := by
    rcases List.mem_pair.mp hf with rfl | rfl
    · obtain rfl := Option.some.inj hso
      rcases List.mem_pair.mp hsb with rfl | rfl
      · cases hg
      · rw [carried_rightsTo, List.mem_singleton, Option.some.injEq] at hg
        subst hg
        decide
    · obtain rfl := Option.some.inj hso
      rw [List.mem_singleton.mp hsb] at hg
      cases hg
  carried_unix f hf so hso hunix := by
    rcases List.mem_pair.mp hf with rfl | rfl <;>
    · obtain rfl := Option.some.inj hso
      cases hunix

theorem queued_rights_flushed : ¬ queuedRights.Exact := by
  intro h
  obtain ⟨fs, hrun, hfs⟩ := h 4 (by decide)
  have hone : unpGc queuedRights false 4 = some [1] := by decide
  obtain rfl : [1] = fs := Option.some.inj (hone.symm.trans hrun)
  refine ((hfs 1).mp List.mem_cons_self).2.2.2 ⟨0, ⟨by decide, by decide⟩, .single (.inr ?_)⟩
  exact ⟨_, rfl, rightsTo 1, List.mem_cons_self, carried_rightsTo 1 ▸ List.mem_cons_self⟩

end Obsd.Unp
