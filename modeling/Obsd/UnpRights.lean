import Obsd.LeBytes
import Obsd.FdescRuns
import Obsd.UnpGc

/-!
# Passing descriptors in messages

`unp_internalize` turns the descriptors of a control message into pointers
to the files, in place, and counts each as a reference in a message;
`unp_externalize` turns the pointers of a received message into
descriptors of the receiver, and takes them off the count again;
`unp_discard` does so for the messages that nobody receives. All lengths
are computed in `unsigned long`, and numbers of descriptors are `int`.

Sizes are those of amd64.
-/

namespace Obsd.Unp

open Fdesc (Filedesc Files Env fdalloc fdexpand fdremove fdGetfile)

/-! ## Lengths -/

/-- `MLEN`: the storage of an mbuf that has no cluster. -/
def mlen : Nat := 224

/-- `MCLBYTES`. -/
def mclbytes : Nat := 2048

/-- `LONG_MAX`. -/
def longMax : Nat := 2 ^ 63 - 1

/-- An `unsigned long` as an `int`. -/
def toInt (x : Nat) : Int := (BitVec.ofNat 32 x).toInt

/-- An `int` as an `unsigned long`. -/
def toUlong (n : Int) : Nat := (n % 2 ^ 64).toNat

/-- `ALIGN`. -/
def align (x : Nat) : Nat := (x + 7) % 2 ^ 64 / 8 * 8

/-- `CMSG_LEN`. -/
def cmsgLEN (x : Nat) : Nat := (cmsgAligned + x) % 2 ^ 64

/-- `CMSG_SPACE`. -/
def cmsgSPACE (x : Nat) : Nat := (cmsgAligned + align x) % 2 ^ 64

/-- How many items of `size` bytes a message of this `cmsg_len` has, as the
code computes it. -/
def nfdsOf (cmsgLen size : Nat) : Int :=
  toInt ((2 ^ 64 + cmsgLen - cmsgAligned) % 2 ^ 64 / size)

/-- `nfds * sizeof(..)`. -/
def sizeOf (nfds : Int) (size : Nat) : Nat := toUlong (nfds * size)

/-! ## Control messages -/

/-- A control mbuf: `m_len`, whether it has a cluster, the header, and the
bytes from `CMSG_DATA` on. -/
structure Control where
  mLen : Nat
  ext : Bool
  cmsgLen : Nat
  cmsgLevel : Nat
  cmsgType : Nat
  data : Mem

namespace Control

/-- The storage of the mbuf from `mtod` on. -/
def space (c : Control) : Nat := if c.ext then mclbytes else mlen

/-- `M_TRAILINGSPACE`. -/
def trailing (c : Control) : Int := (c.space : Int) - c.mLen

/-- The descriptor at this index. -/
def fdAt (c : Control) (i : Nat) : Nat := getLe c.data (4 * i) 4

/-- The pointer at this index. -/
def ptrAt (c : Control) (i : Nat) : Nat := getLe c.data (8 * i) 8

/-- The references to files in a queued message. -/
def refs (c : Control) : List Nat :=
  (List.range (nfdsOf c.cmsgLen sizeofPtr).toNat).map c.ptrAt

end Control

/-- A control mbuf as `sockargs` makes it: `sendit` insists on room for a
header, and it fits the storage. -/
structure UserControl extends Control where
  header : cmsgAligned ≤ mLen
  fits : mLen ≤ toControl.space
  len_lt : cmsgLen < 2 ^ 32

/-! ## Counts -/

/-- The files with their `f_count`, the `f_msgcount` of each, and
`unp_rights`. -/
structure Counts where
  files : Files
  fMsgcount : Nat → Int
  unpRights : Int

namespace Counts

/-- One more reference, in a message. -/
def carry (s : Counts) (fp : Nat) : Counts where
  files := s.files.ref fp
  fMsgcount q := if q = fp then s.fMsgcount q + 1 else s.fMsgcount q
  unpRights := s.unpRights + 1

/-- One reference less, that was in a message. -/
def drop (s : Counts) (fp : Nat) : Counts where
  files := s.files.closef fp
  fMsgcount q := if q = fp then s.fMsgcount q - 1 else s.fMsgcount q
  unpRights := s.unpRights - 1

/-- A reference leaves a message for the table of a process. -/
def deliver (s : Counts) (fp : Nat) : Counts :=
  { s.drop fp with files := s.files }

end Counts

inductive Errno where
  | einval
  | e2big
  | enobufs
  | ebadf
  | edeadlk
  | eperm
  | emsgsize
deriving DecidableEq, Repr

/-- A process: its descriptor table, with the addresses of open files in it;
its limit on open files; whether it has a root directory of its own; and,
of the files that are vnodes, whether they are block devices and whether
directories, and lie under that root. -/
structure Proc where
  fdp : Filedesc
  inv : Fdesc.Inv fdp
  addr : ∀ i fp, fdp.fdOfiles i = some fp → 0 < fp ∧ fp < 2 ^ 64
  env : Env
  rdir : Bool
  vblk : Nat → Bool
  vdir : Nat → Bool
  isunder : Nat → Bool

/-! ## `unp_internalize` -/

/-- What `MCLGET` finds: nothing, or a cluster. The `m_ext` it fills in lies
over the data of the mbuf. -/
structure Cluster where
  junk : Mem
  mExt : Mem

/-- The bytes of `CMSG_DATA` that the fields of `m_ext` lie over: `m_ext`
follows the 64 bytes of a packet header, and `m_clget` does not write
`ext_type` and the padding behind `ext_backend`. -/
def extBytes (a : Nat) : Bool :=
  48 ≤ a && a < 112 && !(76 ≤ a && a < 80) && !(92 ≤ a && a < 96)

/-- The data of the message in a new cluster: what is copied there are the
`cmsg_len` bytes at the old place, after `m_ext` has been written. -/
def clusterData (cl : Cluster) (c : Control) : Mem := fun a =>
  if a + cmsgAligned < c.cmsgLen then if extBytes a then cl.mExt a else c.data a
  else cl.junk a

/-- `neededspace`. -/
def neededspace (nfds : Int) (c : Control) : Int :=
  toInt ((2 ^ 64 + cmsgSPACE (sizeOf nfds sizeofPtr) - c.mLen) % 2 ^ 64)

/-- `morespace`: room for the pointers. -/
def morespace (nfds : Int) (cl : Option Cluster) (c : Control) : Except Errno Control :=
  if neededspace nfds c > c.trailing then
    if c.ext then .error .e2big
    else match cl with
      | none => .error .enobufs
      | some cl =>
          let c := { c with ext := true, data := clusterData cl c }
          if neededspace nfds c > c.trailing then .error .e2big else .ok c
  else .ok c

/-- Back out: the pointers in `n` slots from `k` on. -/
def backOut (data : Mem) : (n k : Nat) → Counts → Counts
  | 0, _, s => s
  | n + 1, k, s => backOut data n (k + 1) (s.drop (getLe data (8 * k) 8))

/-- The loop of `unp_internalize`, with `k` of `nfds` descriptors to go. It
works from the last one down. -/
def internalizeLoop (p : Proc) (nfds : Nat) : (k : Nat) → Mem → Counts → Mem × Counts × Option Errno
  | 0, data, s => (data, s, none)
  | k + 1, data, s =>
      match fdGetfile p.fdp s.files (getLe data (4 * k) 4) with
      | none => (data, backOut data (nfds - (k + 1)) (k + 1) s, some .ebadf)
      | some fp =>
          if (s.files fp).fCount = longMax - 2 ∨ s.fMsgcount fp = longMax - 2 then
            (data, backOut data (nfds - (k + 1)) (k + 1) s, some .edeadlk)
          else internalizeLoop p nfds k (putLe data (8 * k) 8 fp) (s.carry fp)

/-- `unp_internalize`: the message, the counts, and the error if any. -/
def unpInternalize (p : Proc) (cl : Option Cluster) (c : Control) (s : Counts) :
    Control × Counts × Option Errno :=
  if c.cmsgType ≠ scmRights ∨ c.cmsgLevel ≠ solSocket
      ∨ ¬(c.cmsgLen = c.mLen ∨ c.mLen = align c.cmsgLen) then (c, s, some .einval)
  else
    let nfds := nfdsOf c.cmsgLen 4
    match morespace nfds cl c with
    | .error e => (c, s, some e)
    | .ok c =>
        let r := internalizeLoop p nfds.toNat nfds.toNat c.data s
        ({ c with
            cmsgLen := cmsgLEN (sizeOf nfds sizeofPtr) % 2 ^ 32
            mLen := cmsgSPACE (sizeOf nfds sizeofPtr) % 2 ^ 32
            data := r.1 }, r.2.1, r.2.2)

/-! ## `unp_discard` and `unp_scan` -/

/-- `unp_discard`. -/
def unpDiscard (s : Counts) (fp : Nat) : Counts :=
  if fp = 0 then s else s.drop fp

/-- `unp_scan` of a message with `unp_discard`. -/
def unpDispose (c : Control) (s : Counts) : Counts :=
  if c.mLen ≥ sizeofCmsghdr then
    if c.cmsgLevel ≠ solSocket ∨ c.cmsgType ≠ scmRights then s
    else c.refs.foldl unpDiscard s
  else s

/-! ## `unp_externalize` -/

/-- How many descriptors fit in the receiver's buffer. -/
def room (controllen : Nat) : Nat :=
  (if controllen < cmsgAligned then 0 else controllen - cmsgAligned) / 4

/-- `nfds`, cut to the receiver's buffer. The comparison is unsigned. -/
def recvNfds (c : Control) (controllen : Nat) : Nat :=
  if toUlong (nfdsOf c.cmsgLen sizeofPtr) > room controllen then room controllen
  else (nfdsOf c.cmsgLen sizeofPtr).toNat

/-- The pointers that are looked at. -/
def taken (c : Control) (controllen : Nat) : List Nat :=
  (List.range (recvNfds c controllen)).map c.ptrAt

/-- The check of a process with a root directory of its own. A null pointer
is a fault. -/
def checkRoot (p : Proc) : List Nat → Option (Option Errno)
  | [] => some none
  | fp :: fps =>
      if fp = 0 then none
      else if p.vblk fp || (p.vdir fp && !p.isunder fp) then some (some .eperm)
      else checkRoot p fps

/-- The first loop: a slot for each file. On failure those that were
allocated are given back, the last one first. -/
def allocSlots (env : Env) : List Nat → Filedesc → Option (Filedesc × Except Bool (List Nat))
  | [], fdp => some (fdp, .ok [])
  | fp :: fps, fdp =>
      match fdalloc fdp env 0 with
      | none => none
      | some .emfile => some (fdp, .error false)
      | some .enospc => some (fdp, .error true)
      | some (.ok fdp i) =>
          match allocSlots env fps (fdp.setFile i (some fp)) with
          | none => none
          | some (fdp, .error e) => some (fdremove fdp i, .error e)
          | some (fdp, .ok fds) => some (fdp, .ok (i :: fds))

/-- `restart`: as long as there is no space the table is expanded. -/
def allocRestart (env : Env) (fps : List Nat) : (fuel : Nat) → Filedesc →
    Option (Filedesc × Option (List Nat))
  | 0, _ => none
  | fuel + 1, fdp =>
      match allocSlots env fps fdp with
      | none => none
      | some (fdp, .error true) => allocRestart env fps fuel (fdexpand fdp)
      | some (fdp, .error false) => some (fdp, none)
      | some (fdp, .ok fds) => some (fdp, some fds)

/-- Write the descriptors over the pointers. -/
def putFds (data : Mem) : (i : Nat) → List Nat → Mem
  | _, [] => data
  | i, fd :: fds => putFds (putLe data (4 * i) 4 fd) (i + 1) fds

/-- `unp_externalize`: the message, the counts, the table of the receiver,
and the error if any; nothing if it faults. -/
def unpExternalize (p : Proc) (controllen : Nat) (c : Control) (s : Counts) :
    Option (Control × Counts × Filedesc × Option Errno) :=
  let fps := taken c controllen
  match if p.rdir then checkRoot p fps else some none with
  | none => none
  | some (some e) => some (c, fps.foldl unpDiscard s, p.fdp, some e)
  | some none =>
      match allocRestart p.env fps (p.env.lim + 1) p.fdp with
      | none => none
      | some (fdp, none) => some (c, fps.foldl unpDiscard s, fdp, some .emsgsize)
      | some (fdp, some fds) =>
          if 0 ∈ fps then none
          else some ({ c with
              cmsgLen := cmsgLEN (sizeOf fps.length 4) % 2 ^ 32
              mLen := cmsgLEN (sizeOf fps.length 4) % 2 ^ 32
              data := putFds c.data 0 fds }, fps.foldl Counts.deliver s, fdp, none)

/-! ## Arithmetic of lengths -/

theorem toInt_of_emod {x : Nat} {z : Int} (hx : (x : Int) % 2 ^ 32 = z % 2 ^ 32)
    (hlo : -2 ^ 31 ≤ z) (hhi : z < 2 ^ 31) : toInt x = z := by
  rw [toInt, BitVec.toInt_eq_toNat_bmod, BitVec.toNat_ofNat, Int.bmod_def]
  split <;> omega

/-- The number of descriptors is negative for a message shorter than a
header. -/
theorem nfdsOf_four {len : Nat} (h : len < 2 ^ 31) : nfdsOf len 4 = ((len : Int) - 16) / 4 := by
  unfold nfdsOf cmsgAligned
  exact toInt_of_emod (by omega) (by omega) (by omega)

theorem nfdsOf_ptr {len : Nat} (h : len < 2 ^ 31) :
    nfdsOf len sizeofPtr = ((len : Int) - 16) / 8 := by
  unfold nfdsOf cmsgAligned sizeofPtr
  exact toInt_of_emod (by omega) (by omega) (by omega)

theorem cmsgSPACE_ptrs {n : Int} (hlo : -2 ≤ n) (hhi : n < 2 ^ 16) :
    cmsgSPACE (sizeOf n sizeofPtr) = (16 + 8 * n).toNat := by
  unfold cmsgSPACE align sizeOf toUlong cmsgAligned sizeofPtr
  omega

theorem cmsgLEN_ptrs {n : Int} (hlo : -2 ≤ n) (hhi : n < 2 ^ 16) :
    cmsgLEN (sizeOf n sizeofPtr) = (16 + 8 * n).toNat := by
  unfold cmsgLEN sizeOf toUlong cmsgAligned sizeofPtr
  omega

/-- A message of the length that is set for `n` pointers has `n` of them. -/
theorem nfdsOf_sent {n : Int} (hlo : -2 ≤ n) (hhi : n < 2 ^ 16) :
    (nfdsOf (cmsgLEN (sizeOf n sizeofPtr) % 2 ^ 32) sizeofPtr).toNat = n.toNat := by
  rw [cmsgLEN_ptrs hlo hhi, nfdsOf_ptr (by omega)]
  omega

/-- The space that is needed is what the pointers take less what there is. -/
theorem neededspace_eq {n : Int} {c : Control} (hlo : -2 ≤ n) (hhi : n < 2 ^ 16)
    (hlen : c.mLen ≤ 2048) : neededspace n c = 16 + 8 * n - c.mLen := by
  rw [neededspace, cmsgSPACE_ptrs hlo hhi]
  exact toInt_of_emod (by omega) (by omega) (by omega)

theorem Control.space_le (c : Control) : c.space ≤ 2048 := by
  unfold Control.space mclbytes mlen
  split <;> omega

/-- The lengths that are accepted: as many bytes as the mbuf has, up to the
alignment. -/
theorem UserControl.cmsgLen_bounds (c : UserControl)
    (h : c.cmsgLen = c.mLen ∨ c.mLen = align c.cmsgLen) : 9 ≤ c.cmsgLen ∧ c.cmsgLen ≤ 2048 := by
  have hheader := c.header
  have hfits := c.fits
  have hlt := c.len_lt
  have hspace := c.space_le
  unfold cmsgAligned at hheader
  rcases h with h | h
  · omega
  · unfold align at h
    omega

/-! ## Counting -/

namespace Counts

/-- The counts with further references in messages. -/
def add (s : Counts) (fps : List Nat) : Counts where
  files q := { s.files q with fCount := (s.files q).fCount + fps.count q }
  fMsgcount q := s.fMsgcount q + fps.count q
  unpRights := s.unpRights + fps.length

theorem add_nil (s : Counts) : s.add [] = s := by
  simp [add]

theorem carry_add (s : Counts) (fp : Nat) (fps : List Nat) :
    (s.add fps).carry fp = s.add (fp :: fps) := by
  simp only [add, carry, Counts.mk.injEq, List.length_cons]
  refine ⟨?_, ?_, by omega⟩
  · funext q
    by_cases hq : q = fp
    · subst hq
      simp [Files.ref, Files.modify, Nat.add_assoc]
    · simp [Files.ref, Files.modify, hq, List.count_cons_of_ne (Ne.symm hq)]
  · funext q
    by_cases hq : q = fp
    · subst hq
      simp [add_assoc]
    · simp [hq, List.count_cons_of_ne (Ne.symm hq)]

theorem drop_carry (s : Counts) (fp : Nat) : (s.carry fp).drop fp = s := by
  obtain ⟨files, msgcount, rights⟩ := s
  simp only [carry, drop, Counts.mk.injEq, add_sub_cancel_right, and_true]
  constructor
  · funext q
    by_cases hq : q = fp <;> simp [Files.ref, Files.closef, Files.modify, hq]
  · funext q
    by_cases hq : q = fp <;> simp [hq]

theorem drop_add (s : Counts) (fp : Nat) (fps : List Nat) :
    (s.add (fp :: fps)).drop fp = s.add fps := by
  rw [← carry_add, drop_carry]

end Counts

/-! ## The conversion in place -/

/-- The state of the loop with `k` descriptors to go: these are as they were,
the slots from `k` on hold the files of theirs and have been counted, and
nothing behind the last slot has changed. -/
structure Widening (p : Proc) (nfds : Nat) (orig : Mem) (s₀ : Counts) (k : Nat) (data : Mem)
    (s : Counts) : Prop where
  le : k ≤ nfds
  fds : ∀ i < k, getLe data (4 * i) 4 = getLe orig (4 * i) 4
  ptrs : ∀ i, k ≤ i → i < nfds →
    fdGetfile p.fdp s₀.files (getLe orig (4 * i) 4) = some (getLe data (8 * i) 8)
  counts : s = s₀.add ((List.range' k (nfds - k)).map fun i => getLe data (8 * i) 8)
  behind : ∀ a, 8 * nfds ≤ a → data a = orig a

theorem Widening.start (p : Proc) (nfds : Nat) (orig : Mem) (s : Counts) :
    Widening p nfds orig s nfds orig s where
  le := le_rfl
  fds _ _ := rfl
  ptrs i h h' := by omega
  counts := by rw [Nat.sub_self, List.range'_zero, List.map_nil, Counts.add_nil]
  behind _ _ := rfl

/-- Which files descriptors refer to does not depend on the counts. -/
theorem fdGetfile_add (fdp : Filedesc) (s : Counts) (fps : List Nat) (fd : Nat) :
    fdGetfile fdp (s.add fps).files fd = fdGetfile fdp s.files fd := rfl

theorem Proc.addr_of_getfile (p : Proc) {files : Files} {fd fp : Nat}
    (h : fdGetfile p.fdp files fd = some fp) : 0 < fp ∧ fp < 2 ^ 64 := by
  rw [fdGetfile] at h
  split at h
  · exact p.addr fd fp (Option.filter_eq_some_iff.mp h).1
  · cases h

/-- A descriptor is read before its slot or one of those below is written. -/
theorem Widening.step {p : Proc} {nfds k fp : Nat} {orig data : Mem} {s₀ s : Counts}
    (h : Widening p nfds orig s₀ (k + 1) data s)
    (hfp : fdGetfile p.fdp s.files (getLe data (4 * k) 4) = some fp) :
    Widening p nfds orig s₀ k (putLe data (8 * k) 8 fp) (s.carry fp) := by
  have haddr : fp < 256 ^ 8 := (p.addr_of_getfile hfp).2.trans_eq (by decide)
  have hself : getLe (putLe data (8 * k) 8 fp) (8 * k) 8 = fp := getLe_putLe haddr
  have hslots : ∀ i, k + 1 ≤ i →
      getLe (putLe data (8 * k) 8 fp) (8 * i) 8 = getLe data (8 * i) 8 :=
    fun i hi => getLe_putLe_of_disjoint (by omega)
  rw [h.counts, fdGetfile_add, h.fds k (by omega)] at hfp
  refine ⟨by have := h.le; omega, ?_, ?_, ?_, ?_⟩
  · intro i hi
    rw [getLe_putLe_of_disjoint (by omega), h.fds i (by omega)]
  · intro i hki hi
    rcases Nat.eq_or_lt_of_le hki with rfl | hlt
    · rw [hself, hfp]
    · rw [hslots i hlt, h.ptrs i hlt hi]
  · have hlen : nfds - k = nfds - (k + 1) + 1 := by have := h.le; omega
    have hrest : (List.range' (k + 1) (nfds - (k + 1))).map
          (fun i => getLe (putLe data (8 * k) 8 fp) (8 * i) 8)
        = (List.range' (k + 1) (nfds - (k + 1))).map fun i => getLe data (8 * i) 8 := by
      refine List.map_congr_left fun i hi => hslots i ?_
      obtain ⟨j, -, rfl⟩ := List.mem_range'.mp hi
      omega
    rw [h.counts, Counts.carry_add, hlen, List.range'_succ, List.map_cons, hself, hrest]
  · intro a ha
    rw [putLe_of_outside (by have := h.le; omega), h.behind a ha]

/-- Backing out takes off what was counted. -/
theorem backOut_add (data : Mem) (n k : Nat) (s : Counts) :
    backOut data n k (s.add ((List.range' k n).map fun i => getLe data (8 * i) 8)) = s := by
  induction n generalizing k with
  | zero => rw [backOut, List.range'_zero, List.map_nil, Counts.add_nil]
  | succ n ih => rw [backOut, List.range'_succ, List.map_cons, Counts.drop_add, ih]

/-- The loop converts all the descriptors, or leaves the counts as they
were. -/
theorem internalizeLoop_spec {p : Proc} {nfds : Nat} {orig : Mem} {s₀ : Counts} (k : Nat)
    {data : Mem} {s : Counts} (h : Widening p nfds orig s₀ k data s) :
    ((internalizeLoop p nfds k data s).2.2 = none →
      Widening p nfds orig s₀ 0 (internalizeLoop p nfds k data s).1
        (internalizeLoop p nfds k data s).2.1)
    ∧ ((internalizeLoop p nfds k data s).2.2 ≠ none →
      (internalizeLoop p nfds k data s).2.1 = s₀) := by
  induction k generalizing data s with
  | zero => exact ⟨fun _ => h, fun hne => absurd rfl hne⟩
  | succ k ih =>
      have hback : backOut data (nfds - (k + 1)) (k + 1) s = s₀ := by
        rw [h.counts, backOut_add]
      rw [internalizeLoop]
      split
      · exact ⟨nofun, fun _ => hback⟩
      · rename_i fp hfp
        split
        · exact ⟨nofun, fun _ => hback⟩
        · exact ih (h.step hfp)

/-- Making room keeps the length of the mbuf, leaves room for the pointers,
and without a new cluster changes nothing. -/
theorem morespace_ok {nfds : Int} {cl : Option Cluster} {c c' : Control}
    (h : morespace nfds cl c = .ok c') :
    c'.mLen = c.mLen ∧ neededspace nfds c' ≤ c'.trailing
      ∧ (neededspace nfds c ≤ c.trailing → c' = c)
      ∧ c'.cmsgLevel = c.cmsgLevel ∧ c'.cmsgType = c.cmsgType := by
  unfold morespace at h
  split_ifs at h with hneed hext
  · cases cl with
    | none => cases h
    | some cl =>
        simp only at h
        split_ifs at h with hneed'
        obtain rfl := Except.ok.inj h
        exact ⟨rfl, not_lt.mp hneed', fun hle => absurd hneed (not_lt.mpr hle), rfl, rfl⟩
  · obtain rfl := Except.ok.inj h
    exact ⟨rfl, not_lt.mp hneed, fun _ => rfl, rfl, rfl⟩

/-- What the conversion of `c` to `c'` is to be: every descriptor of `c` is
looked up as it was before anything was written, the pointers to the files
take the place of the descriptors, and nothing is written outside of the
mbuf. -/
structure Converted (p : Proc) (files : Files) (nfds : Nat) (c c' : Control) : Prop where
  refs_length : c'.refs.length = nfds
  ptrs : ∀ i < nfds, fdGetfile p.fdp files (c.fdAt i) = some (c'.ptrAt i)
  behind : ∀ a, 8 * nfds ≤ a → c'.data a = c.data a
  space_eq : c'.space = c.space
  inside : cmsgAligned + 8 * nfds ≤ c'.space

/-- A message as it is while it is queued. -/
structure Queued (c : Control) : Prop where
  level : c.cmsgLevel = solSocket
  type : c.cmsgType = scmRights
  header : c.refs ≠ [] → sizeofCmsghdr ≤ c.mLen
  nonnull : 0 ∉ c.refs

/-- `unp_internalize` converts the message and counts its references, or
fails and leaves all counts as they are. -/
theorem unpInternalize_spec (p : Proc) (cl : Option Cluster) (c : UserControl) (s : Counts) :
    ((unpInternalize p cl c.toControl s).2.2 ≠ none →
      (unpInternalize p cl c.toControl s).2.1 = s)
    ∧ ((unpInternalize p cl c.toControl s).2.2 = none →
      ∃ c₁, morespace (nfdsOf c.cmsgLen 4) cl c.toControl = .ok c₁
        ∧ Converted p s.files (nfdsOf c.cmsgLen 4).toNat c₁
            (unpInternalize p cl c.toControl s).1
        ∧ Queued (unpInternalize p cl c.toControl s).1
        ∧ (unpInternalize p cl c.toControl s).2.1
            = s.add (unpInternalize p cl c.toControl s).1.refs) := by
  rw [unpInternalize]
  split_ifs with hbad
  · exact ⟨fun _ => rfl, nofun⟩
  · push Not at hbad
    obtain ⟨htype, hlevel, hlen⟩ := hbad
    obtain ⟨hlo, hhi⟩ := c.cmsgLen_bounds (by tauto)
    have hnfds : nfdsOf c.cmsgLen 4 = _ := nfdsOf_four (by omega)
    have hmlen : c.mLen ≤ 2048 := c.fits.trans c.space_le
    simp only
    split
    · exact ⟨fun _ => rfl, nofun⟩
    · rename_i c₁ hroom
      obtain ⟨hmLen, hneed, -, hlevel', htype'⟩ := morespace_ok hroom
      rw [neededspace_eq (by omega) (by omega) (by omega), Control.trailing] at hneed
      set nfds := nfdsOf c.cmsgLen 4 with hdef
      have hspec := internalizeLoop_spec nfds.toNat
        (Widening.start p nfds.toNat c₁.data s)
      refine ⟨hspec.2, fun hok => ⟨c₁, hroom, ?_⟩⟩
      have hw := hspec.1 hok
      have hn := nfdsOf_sent (n := nfds) (by omega) (by omega)
      have hptrs : ∀ fp ∈ (List.range nfds.toNat).map fun i =>
          getLe (internalizeLoop p nfds.toNat nfds.toNat c₁.data s).1 (8 * i) 8, fp ≠ 0 := by
        intro fp hfp
        obtain ⟨i, hi, rfl⟩ := List.mem_map.mp hfp
        have haddr := p.addr_of_getfile (hw.ptrs i (Nat.zero_le _) (List.mem_range.mp hi))
        omega
      refine ⟨⟨?_, ?_, hw.behind, rfl, ?_⟩, ⟨?_, ?_, ?_, ?_⟩, ?_⟩
      · simp only [Control.refs, List.length_map, List.length_range, hn]
      · exact fun i hi => hw.ptrs i (Nat.zero_le _) hi
      · show cmsgAligned + 8 * nfds.toNat ≤ c₁.space
        have hleast : 224 ≤ c₁.space := by
          unfold Control.space mclbytes mlen
          split <;> omega
        unfold cmsgAligned
        omega
      · exact hlevel'.trans hlevel
      · exact htype'.trans htype
      · intro hne
        have hpos : 0 < nfds.toNat := by
          rw [← hn]
          simpa [Control.refs, Nat.pos_iff_ne_zero] using hne
        show 12 ≤ cmsgSPACE (sizeOf nfds sizeofPtr) % 2 ^ 32
        rw [cmsgSPACE_ptrs (by omega) (by omega)]
        omega
      · intro h0
        simp only [Control.refs, hn] at h0
        exact hptrs 0 h0 rfl
      · simp only [Control.refs, hn]
        rw [hw.counts, Nat.sub_zero, ← List.range_eq_range']
        rfl

end Obsd.Unp
