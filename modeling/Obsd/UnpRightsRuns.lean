import Obsd.UnpRights

/-!
# Every reference in a message is counted

Messages are sent, received and thrown away in any order, by any processes,
while files are opened and closed by others. As long as the receivers take
all the descriptors of their messages, `f_msgcount` of a file is the number
of references to it in queued messages and `unp_rights` is the number of
all of them. A receiver with too small a buffer gets the first descriptors
only, and the others stay counted for ever.
-/

namespace Obsd.Unp

open Fdesc (Filedesc Files Env fdalloc fdexpand fdremove fdGetfile)

/-! ## The system -/

/-- The counts and the messages in flight. -/
structure St where
  counts : Counts
  queue : List Control

/-- Nothing has been sent yet. -/
def St.start (files : Files) : St := ⟨⟨files, fun _ => 0, 0⟩, []⟩

/-- The references in queued messages. -/
def St.inFlight (s : St) : List Nat := s.queue.flatMap Control.refs

/-- A send with a control message; the receipt of the `k`-th message with a
control buffer of this length; the disposal of the `k`-th message; and
whatever else happens to the `f_count` of files. -/
inductive Ev where
  | send (p : Proc) (cl : Option Cluster) (c : UserControl)
  | receive (k : Nat) (p : Proc) (controllen : Nat)
  | discard (k : Nat)
  | others (files : Files)

def step (s : St) : Ev → Option St
  | .send p cl c =>
      let r := unpInternalize p cl c.toControl s.counts
      some ⟨r.2.1, if r.2.2 = none then s.queue ++ [r.1] else s.queue⟩
  | .receive k p controllen =>
      match s.queue[k]? with
      | none => none
      | some c => (unpExternalize p controllen c s.counts).map fun r => ⟨r.2.1, s.queue.eraseIdx k⟩
  | .discard k =>
      match s.queue[k]? with
      | none => none
      | some c => some ⟨unpDispose c s.counts, s.queue.eraseIdx k⟩
  | .others files => some { s with counts := { s.counts with files := files } }

/-- A receive has room for all the descriptors of the message, and for none
if the message is shorter than a header. -/
def RecvOk (s : St) : Ev → Prop
  | .receive k _ controllen => ∀ c, s.queue[k]? = some c →
      (nfdsOf c.cmsgLen sizeofPtr).toNat ≤ room controllen
        ∧ (nfdsOf c.cmsgLen sizeofPtr < 0 → room controllen = 0)
  | _ => True

/-! ## Slots for the descriptors -/

/-- What the first loop makes of a table: the files are under new descriptors,
or all is as it was. -/
def Installed (lim : Nat) (fdp fdp' : Filedesc) (fps : List Nat) : Except Bool (List Nat) → Prop
  | .error _ => fdp'.fdOfiles = fdp.fdOfiles
  | .ok fds => fds.Nodup ∧ (∀ fd ∈ fds, fdp.fdOfiles fd = none ∧ fd < lim)
      ∧ (∀ fd ∉ fds, fdp'.fdOfiles fd = fdp.fdOfiles fd) ∧ fds.map fdp'.fdOfiles = fps.map some

theorem Installed.cons {lim i fp : Nat} {fdp fdp₁ fdp' : Filedesc} {fps fds : List Nat}
    (hsame : fdp₁.fdOfiles = fdp.fdOfiles) (hnone : fdp.fdOfiles i = none) (hi : i < lim)
    (h : Installed lim (fdp₁.setFile i (some fp)) fdp' fps (.ok fds)) :
    Installed lim fdp fdp' (fp :: fps) (.ok (i :: fds)) := by
  have hset : (fdp₁.setFile i (some fp)).fdOfiles =
      fun fd => if fd = i then some fp else fdp.fdOfiles fd := hsame ▸ rfl
  rw [Installed, hset] at h
  obtain ⟨hnodup, hfree, hframe, hmap⟩ := h
  have hnew : i ∉ fds := fun hmem => by simpa using (hfree i hmem).1
  refine ⟨List.nodup_cons.mpr ⟨hnew, hnodup⟩, List.forall_mem_cons.mpr ⟨⟨hnone, hi⟩, ?_⟩, ?_, ?_⟩
  · intro fd hfd
    simpa [ne_of_mem_of_not_mem hfd hnew] using hfree fd hfd
  · intro fd hfd
    rw [List.mem_cons, not_or] at hfd
    exact (hframe fd hfd.2).trans (if_neg hfd.1)
  · simp [hmap, hframe i hnew]

/-- The first loop returns, keeps the table in order and of its size, and
finds no space only below the limit. -/
theorem allocSlots_spec (env : Env) (fps : List Nat) {fdp : Filedesc} (h : Fdesc.Inv fdp) :
    ∃ fdp' r, allocSlots env fps fdp = some (fdp', r) ∧ Fdesc.Inv fdp'
      ∧ fdp'.fdNfiles = fdp.fdNfiles ∧ (r = .error true → fdp.fdNfiles < env.lim)
      ∧ Installed env.lim fdp fdp' fps r := by
  induction fps generalizing fdp with
  | nil => exact ⟨fdp, .ok [], rfl, h, rfl, nofun, by simp [Installed]⟩
  | cons fp fps ih =>
      obtain ⟨r, hr, hok⟩ := Fdesc.fdalloc_spec h env 0
      rw [allocSlots, hr]
      cases r with
      | emfile => exact ⟨fdp, .error false, rfl, h, rfl, nofun, rfl⟩
      | enospc => exact ⟨fdp, .error true, rfl, h, rfl, fun _ => hok.1, rfl⟩
      | ok fdp₁ i =>
          have hm := hok.marked
          obtain ⟨hsize₁, hsame⟩ : fdp₁.fdNfiles = fdp.fdNfiles
              ∧ fdp₁.fdOfiles = fdp.fdOfiles := by
            obtain ⟨-, -, freefile, rfl, -⟩ := hm
            exact ⟨rfl, rfl⟩
          obtain ⟨fdp', r, hrest, hinv, hsize, hlim, hin⟩ := ih (hm.install h fp)
          have hsize : fdp'.fdNfiles = fdp.fdNfiles := hsize.trans hsize₁
          have hi := hm.2.1
          simp only [hrest]
          cases r with
          | ok fds =>
              exact ⟨fdp', .ok (i :: fds), rfl, hinv, hsize, nofun,
                hin.cons hsame hm.1 (lt_of_lt_of_le hok.2.1 (min_le_right ..))⟩
          | error e =>
              refine ⟨fdremove fdp' i, .error e, rfl, Fdesc.inv_fdremove hinv (by omega), hsize,
                fun he => hsize₁ ▸ hlim he, funext fun fd => ?_⟩
              show (if fd = i then none else fdp'.fdOfiles fd) = _
              rw [show fdp'.fdOfiles = _ from hin]
              split_ifs with hfd
              · rw [hfd, hm.1]
              · exact (if_neg hfd).trans (congrFun hsame fd)

/-- The table grows with each restart, so there are not more of them than
the limit allows. -/
theorem allocRestart_spec (env : Env) (fps : List Nat) (fuel : Nat) {fdp : Filedesc}
    (h : Fdesc.Inv fdp) (hfuel : env.lim - fdp.fdNfiles < fuel) :
    ∃ fdp' r, allocRestart env fps fuel fdp = some (fdp', r)
      ∧ ∀ fds ∈ r, Installed env.lim fdp fdp' fps (.ok fds) := by
  induction fuel generalizing fdp with
  | zero => omega
  | succ fuel ih =>
      obtain ⟨fdp₁, r, hr, hinv, hsize, hlim, hin⟩ := allocSlots_spec env fps h
      rw [allocRestart, hr]
      match r with
      | .error true =>
          obtain ⟨hinv', hlt⟩ := Fdesc.inv_fdexpand hinv
          have := hlim rfl
          have hsame : (fdexpand fdp₁).fdOfiles = fdp.fdOfiles :=
            (funext (Fdesc.fdexpand_resized hinv).1.ofiles).trans hin
          simpa only [Installed, hsame] using ih hinv' (by omega)
      | .error false => exact ⟨fdp₁, none, rfl, nofun⟩
      | .ok fds => exact ⟨fdp₁, some fds, rfl, fun _ h => Option.some.inj h ▸ hin⟩

/-- The descriptors that are written are read back. -/
theorem getLe_putFds {data : Mem} (i : Nat) {fds : List Nat} (hfds : ∀ fd ∈ fds, fd < 256 ^ 4) :
    (∀ j < i, getLe (putFds data i fds) (4 * j) 4 = getLe data (4 * j) 4)
      ∧ ∀ k (hk : k < fds.length), getLe (putFds data i fds) (4 * (i + k)) 4 = fds[k] := by
  induction fds generalizing data i with
  | nil => exact ⟨fun _ _ => rfl, by simp⟩
  | cons fd fds ih =>
      rw [List.forall_mem_cons] at hfds
      obtain ⟨hbelow, hback⟩ := @ih (putLe data (4 * i) 4 fd) (i + 1) hfds.2
      refine ⟨fun j hj => ?_, fun k hk => ?_⟩
      · rw [putFds, hbelow j (by omega), getLe_putLe_of_disjoint (by omega)]
      · cases k with
        | zero => exact (hbelow i (by omega)).trans (getLe_putLe hfds.1)
        | succ k =>
            have := hback k (Nat.lt_of_succ_lt_succ hk)
            rwa [Nat.add_assoc, Nat.add_comm 1] at this

/-! ## Taking references off the counts -/

/-- The counts agree with the references in messages. -/
structure Counted (s : Counts) (refs : List Nat) : Prop where
  msgcount : ∀ q, s.fMsgcount q = refs.count q
  rights : s.unpRights = refs.length

theorem Counted.perm {s : Counts} {refs refs' : List Nat} (h : Counted s refs)
    (hp : refs.Perm refs') : Counted s refs' where
  msgcount q := by rw [h.msgcount, hp.count_eq]
  rights := by rw [h.rights, hp.length_eq]

theorem Counted.add {s : Counts} {refs : List Nat} (h : Counted s refs) (fps : List Nat) :
    Counted (s.add fps) (refs ++ fps) where
  msgcount q := by
    simp only [Counts.add, h.msgcount, List.count_append]
    omega
  rights := by
    simp only [Counts.add, h.rights, List.length_append]
    omega

theorem Counted.drop {s : Counts} {fp : Nat} {rest : List Nat} (h : Counted s (fp :: rest)) :
    Counted (s.drop fp) rest where
  msgcount q := by
    have hq := h.msgcount q
    simp only [Counts.drop]
    split_ifs with heq
    · subst heq
      rw [hq, List.count_cons_self]
      omega
    · rw [hq, List.count_cons_of_ne (Ne.symm heq)]
  rights := by
    simp only [Counts.drop, h.rights, List.length_cons]
    omega

theorem Counted.deliver {s : Counts} {fp : Nat} {rest : List Nat} (h : Counted s (fp :: rest)) :
    Counted (s.deliver fp) rest :=
  ⟨h.drop.msgcount, h.drop.rights⟩

/-- Operations that take one reference off, one after the other. -/
theorem Counted.foldl {f : Counts → Nat → Counts} {rest : List Nat}
    (hf : ∀ s fp rest, fp ≠ 0 → Counted s (fp :: rest) → Counted (f s fp) rest) (fps : List Nat)
    {s : Counts} (hnull : 0 ∉ fps) (h : Counted s (fps ++ rest)) :
    Counted (fps.foldl f s) rest := by
  induction fps generalizing s with
  | nil => exact h
  | cons fp fps ih =>
      rw [List.mem_cons, not_or] at hnull
      exact ih hnull.2 (hf s fp _ (Ne.symm hnull.1) h)

theorem Counted.foldl_discard {fps rest : List Nat} {s : Counts} (hnull : 0 ∉ fps)
    (h : Counted s (fps ++ rest)) : Counted (fps.foldl unpDiscard s) rest := by
  refine Counted.foldl (fun s fp rest hne h => ?_) fps hnull h
  rw [unpDiscard, if_neg hne]
  exact h.drop

/-! ## Receiving -/

/-- With enough room every pointer of the message is taken. -/
theorem taken_eq {c : Control} {controllen : Nat}
    (hroom : (nfdsOf c.cmsgLen sizeofPtr).toNat ≤ room controllen)
    (hneg : nfdsOf c.cmsgLen sizeofPtr < 0 → room controllen = 0) :
    taken c controllen = c.refs := by
  rw [taken, Control.refs, recvNfds]
  congr 2
  unfold toUlong
  split_ifs <;> omega

theorem checkRoot_spec (p : Proc) {fps : List Nat} (hnull : 0 ∉ fps) :
    ∃ e, checkRoot p fps = some e := by
  induction fps with
  | nil => exact ⟨none, rfl⟩
  | cons fp fps ih =>
      rw [List.mem_cons, not_or] at hnull
      rw [checkRoot, if_neg (Ne.symm hnull.1)]
      split
      · exact ⟨_, rfl⟩
      · exact ih hnull.2

/-- A receive with room for everything returns, and takes the references of
the message off the counts, whether it fails or not. -/
theorem unpExternalize_spec {p : Proc} {controllen : Nat} {c : Control} {s : Counts}
    (hc : Queued c) (htaken : taken c controllen = c.refs) :
    ∃ r, unpExternalize p controllen c s = some r
      ∧ ∀ rest, Counted s (c.refs ++ rest) → Counted r.2.1 rest := by
  obtain ⟨fdp, r, halloc, -⟩ := allocRestart_spec p.env c.refs (p.env.lim + 1) p.inv (by omega)
  obtain ⟨e, he⟩ : ∃ e, (if p.rdir then checkRoot p c.refs else some none) = some e := by
    split
    · exact checkRoot_spec p hc.nonnull
    · exact ⟨_, rfl⟩
  simp only [unpExternalize, htaken, he, halloc]
  cases e with
  | some e => exact ⟨_, rfl, fun rest h => h.foldl_discard hc.nonnull⟩
  | none =>
      cases r with
      | none => exact ⟨_, rfl, fun rest h => h.foldl_discard hc.nonnull⟩
      | some fds =>
          simp only [if_neg hc.nonnull]
          refine ⟨_, rfl, fun rest h => ?_⟩
          exact Counted.foldl (fun _ _ _ _ h => h.deliver) c.refs hc.nonnull h

/-- **What is sent arrives**: the descriptors that fit the receiver's buffer, in their order, are
new ones of the receiver for the files the sender named; those it had are as they were. -/
theorem rights_delivered {p q : Proc} {cl : Option Cluster} {c : UserControl} {s s' t t' : Counts}
    {sent got : Control} {controllen : Nat} {fdp : Filedesc}
    (hfits : neededspace (nfdsOf c.cmsgLen 4) c.toControl ≤ c.trailing)
    (hsend : unpInternalize p cl c.toControl s = (sent, s', none)) (hlim : q.env.lim ≤ 2 ^ 32)
    (hrecv : unpExternalize q controllen sent t = some (got, t', fdp, none)) :
    (∀ i < min (nfdsOf c.cmsgLen 4).toNat (room controllen), ∃ fp,
      fdGetfile p.fdp s.files (c.fdAt i) = some fp ∧ fdp.fdOfiles (got.fdAt i) = some fp
        ∧ q.fdp.fdOfiles (got.fdAt i) = none ∧ ∀ j < i, got.fdAt j ≠ got.fdAt i)
    ∧ ∀ fd, q.fdp.fdOfiles fd ≠ none → fdp.fdOfiles fd = q.fdp.fdOfiles fd := by
  obtain ⟨c₁, hroom, hconv, -⟩ := (unpInternalize_spec p cl c s).2 (congrArg (·.2.2) hsend)
  obtain rfl := (morespace_ok hroom).2.2.1 hfits
  rw [hsend] at hconv
  have hlen : (nfdsOf sent.cmsgLen sizeofPtr).toNat = (nfdsOf c.cmsgLen 4).toNat := by
    simpa [Control.refs] using hconv.refs_length
  obtain ⟨_, r, halloc, hin⟩ :=
    allocRestart_spec q.env (taken sent controllen) (q.env.lim + 1) q.inv (by omega)
  simp only [unpExternalize, halloc] at hrecv
  split at hrecv
  · cases hrecv
  · cases hrecv
  · cases r with
    | none => cases hrecv
    | some fds =>
      split_ifs at hrecv
      cases hrecv
      obtain ⟨hnodup, hfree, hframe, hmap⟩ := hin fds rfl
      refine ⟨fun i hi => ?_, fun fd hfd => hframe fd fun hmem => hfd (hfree fd hmem).1⟩
      have hcount : fds.length = recvNfds sent controllen := by
        simpa [taken] using congrArg List.length hmap
      have hi' : i < fds.length := by
        rw [hcount, recvNfds]
        split_ifs <;> omega
      have hget : fdp.fdOfiles fds[i] = some (sent.ptrAt i) := by
        simpa [taken, hi', ← hcount] using congrArg (·[i]?) hmap
      have hat : ∀ j (hj : j < fds.length), getLe (putFds sent.data 0 fds) (4 * j) 4 = fds[j] := by
        simpa only [Nat.zero_add] using
          (getLe_putFds 0 fun fd hfd => (hfree fd hfd).2.trans_le hlim).2
      simp only [Control.fdAt, hat i hi']
      refine ⟨_, hconv.ptrs i (by omega), hget, (hfree _ (List.getElem_mem hi')).1, ?_⟩
      intro j hj
      rw [hat j (by omega), Ne, hnodup.getElem_inj_iff]
      omega

/-- So does a disposal. -/
theorem unpDispose_spec {c : Control} {s : Counts} (hc : Queued c) {rest : List Nat}
    (h : Counted s (c.refs ++ rest)) : Counted (unpDispose c s) rest := by
  rw [unpDispose]
  split_ifs with hlen hother
  · exact absurd hother (by simp [hc.level, hc.type])
  · exact h.foldl_discard hc.nonnull
  · -- a message shorter than a header carries nothing
    have hnil : c.refs = [] := by
      by_contra hne
      exact hlen (hc.header hne)
    rwa [hnil] at h

/-! ## Runs -/

/-- Queued messages are as `unp_internalize` leaves them, and what they carry
is counted. -/
structure St.Inv (s : St) : Prop where
  queued : ∀ c ∈ s.queue, Queued c
  counted : Counted s.counts s.inFlight

/-- The references of a message and those of the others. -/
theorem inFlight_perm {queue : List Control} {k : Nat} {c : Control} (hk : queue[k]? = some c) :
    (queue.flatMap Control.refs).Perm
      (c.refs ++ (queue.eraseIdx k).flatMap Control.refs) := by
  obtain ⟨hlt, rfl⟩ := List.getElem?_eq_some_iff.mp hk
  exact ((List.getElem_cons_eraseIdx_perm hlt).symm.flatMap_right Control.refs)

/-- A message that leaves the queue takes its references with it. -/
theorem St.Inv.erase {s : St} (h : s.Inv) {k : Nat} {c : Control} (hk : s.queue[k]? = some c)
    {counts : Counts}
    (hcounts : ∀ rest, Counted s.counts (c.refs ++ rest) → Counted counts rest) :
    St.Inv ⟨counts, s.queue.eraseIdx k⟩ where
  queued c' hc' := h.queued c' (List.mem_of_mem_eraseIdx hc')
  counted := hcounts _ (h.counted.perm (inFlight_perm hk))

/-- A receive that has room returns. -/
theorem step_receive {s : St} (h : s.Inv) {k : Nat} {p : Proc} {controllen : Nat} {c : Control}
    (hk : s.queue[k]? = some c) (hok : RecvOk s (.receive k p controllen)) :
    ∃ s', step s (.receive k p controllen) = some s' ∧ s'.Inv := by
  obtain ⟨hroom, hneg⟩ := hok c hk
  have hc := h.queued c (List.mem_of_getElem? hk)
  obtain ⟨r, hr, hcounts⟩ :=
    unpExternalize_spec (p := p) (s := s.counts) hc (taken_eq hroom hneg)
  refine ⟨⟨r.2.1, s.queue.eraseIdx k⟩, ?_, h.erase hk hcounts⟩
  simp only [step, hk, hr, Option.map_some]

theorem step_keeps (s : St) (e : Ev) (s' : St) (hok : RecvOk s e) (hs : step s e = some s')
    (h : s.Inv) : s'.Inv := by
  cases e with
  | send p cl c =>
      obtain rfl := Option.some.inj hs
      obtain ⟨hfail, hsent⟩ := unpInternalize_spec p cl c s.counts
      by_cases hnone : (unpInternalize p cl c.toControl s.counts).2.2 = none
      · obtain ⟨c₁, -, -, hq, hcounts⟩ := hsent hnone
        simp only [if_pos hnone]
        refine ⟨?_, ?_⟩
        · intro c' hc'
          rcases List.mem_append.mp hc' with hc' | hc'
          · exact h.queued c' hc'
          · rw [List.mem_singleton.mp hc']
            exact hq
        · simp only [St.inFlight, List.flatMap_append, List.flatMap_singleton, hcounts]
          exact h.counted.add _
      · simp only [if_neg hnone, hfail hnone]
        exact h
  | receive k p controllen =>
      cases hk : s.queue[k]? with
      | none =>
          simp only [step, hk] at hs
          cases hs
      | some c =>
          obtain ⟨s'', hs'', hinv⟩ := step_receive h hk hok
          obtain rfl := Option.some.inj (hs.symm.trans hs'')
          exact hinv
  | discard k =>
      cases hk : s.queue[k]? with
      | none =>
          simp only [step, hk] at hs
          cases hs
      | some c =>
          simp only [step, hk] at hs
          obtain rfl := Option.some.inj hs
          exact h.erase hk fun rest => unpDispose_spec (h.queued c (List.mem_of_getElem? hk))
  | others files =>
      obtain rfl := Option.some.inj hs
      exact ⟨h.queued, h.counted.msgcount, h.counted.rights⟩

theorem inv_of_runs {files : Files} {s : St} (h : Runs step RecvOk (St.start files) s) : s.Inv :=
  h.invariant step_keeps ⟨by simp [St.start], ⟨fun _ => rfl, rfl⟩⟩

/-- `unp_rights` is the sum of the counts of all files. -/
theorem Counted.sum {s : Counts} {refs : List Nat} (h : Counted s refs) {fs : Finset Nat}
    (hfs : ∀ q, s.fMsgcount q ≠ 0 → q ∈ fs) : s.unpRights = ∑ q ∈ fs, s.fMsgcount q := by
  have hmem : ∀ q ∈ (refs : Multiset Nat), q ∈ fs := by
    intro q hq
    apply hfs
    rw [h.msgcount]
    have := List.count_pos_iff.mpr (Multiset.mem_coe.mp hq)
    omega
  have hcard : ∑ q ∈ fs, refs.count q = refs.length := by
    simpa using Multiset.sum_count_eq_card hmem
  rw [h.rights, ← hcard, Nat.cast_sum]
  exact Finset.sum_congr rfl fun q _ => (h.msgcount q).symm

/-- In every run in which the receivers have room for the descriptors of
their messages: every receipt returns, `f_msgcount` of each file is the
number of references to it in queued messages and `unp_rights` the sum of
them; a send that fails leaves every count as it was; and one that succeeds
has looked up every descriptor as the message had it when the conversion
began and stayed inside of the mbuf, the message being the sender's own
unless a cluster had to be found for it. -/
theorem rights_counted (files : Files) (s : St) (h : Runs step RecvOk (St.start files) s) :
    (∀ q, s.counts.fMsgcount q = s.inFlight.count q)
    ∧ (∀ fs : Finset Nat, (∀ q, s.counts.fMsgcount q ≠ 0 → q ∈ fs) →
        s.counts.unpRights = ∑ q ∈ fs, s.counts.fMsgcount q)
    ∧ (∀ k p controllen, k < s.queue.length → RecvOk s (.receive k p controllen) →
        ∃ s', step s (.receive k p controllen) = some s')
    ∧ (∀ p cl (c : UserControl), (unpInternalize p cl c.toControl s.counts).2.2 ≠ none →
        (unpInternalize p cl c.toControl s.counts).2.1 = s.counts)
    ∧ ∀ p cl (c : UserControl), (unpInternalize p cl c.toControl s.counts).2.2 = none →
        ∃ c₁, morespace (nfdsOf c.cmsgLen 4) cl c.toControl = .ok c₁
          ∧ (neededspace (nfdsOf c.cmsgLen 4) c.toControl ≤ c.trailing → c₁ = c.toControl)
          ∧ Converted p s.counts.files (nfdsOf c.cmsgLen 4).toNat c₁
              (unpInternalize p cl c.toControl s.counts).1 := by
  have hinv := inv_of_runs h
  refine ⟨hinv.counted.msgcount, fun fs hfs => hinv.counted.sum hfs, ?_, ?_, ?_⟩
  · intro k p controllen hk hok
    obtain ⟨s', hs', -⟩ := step_receive hinv (List.getElem?_eq_getElem hk) hok
    exact ⟨s', hs'⟩
  · intro p cl c hfail
    exact (unpInternalize_spec p cl c s.counts).1 hfail
  · intro p cl c hok
    obtain ⟨c₁, hroom, hconv, -, -⟩ := (unpInternalize_spec p cl c s.counts).2 hok
    exact ⟨c₁, hroom, (morespace_ok hroom).2.2.1, hconv⟩

/-! ## A message with one descriptor -/

/-- A table with the file at address `8` under descriptor `0`. -/
def oneFile : Filedesc := (Fdesc.fdUsed {} 0).setFile 0 (some 8)

theorem inv_oneFile : Fdesc.Inv oneFile :=
  Fdesc.Marked.install Fdesc.inv_fdinit ⟨rfl, by decide, 0, rfl, nofun⟩ 8

/-- A process that has it. -/
def oneProc : Proc where
  fdp := oneFile
  inv := inv_oneFile
  addr i fp h := by
    have hi : (if i = 0 then some 8 else (none : Option Nat)) = some fp := h
    split_ifs at hi
    obtain rfl := Option.some.inj hi
    decide
  env := { lim := 64 }
  rdir := false
  vblk _ := false
  vdir _ := false
  isunder _ := true

/-- A control message with descriptor `0`. -/
def oneDescriptor : UserControl where
  mLen := 20
  ext := false
  cmsgLen := 20
  cmsgLevel := solSocket
  cmsgType := scmRights
  data _ := 0
  header := by decide
  fits := by decide
  len_lt := by decide

/-- The counts and the message after it has been sent. -/
def oneSent : Control × Counts × Option Errno :=
  unpInternalize oneProc none oneDescriptor.toControl (St.start fun _ => {}).counts

def oneQueued : St := ⟨oneSent.2.1, [oneSent.1]⟩

theorem step_oneQueued :
    step (St.start fun _ => {}) (.send oneProc none oneDescriptor) = some oneQueued := by
  rfl

theorem rights_counted_one :
    oneQueued.inFlight = [8] ∧ oneQueued.counts.fMsgcount 8 = oneQueued.inFlight.count 8 :=
  ⟨by decide, (rights_counted (fun _ => {}) oneQueued
    (.single ⟨.send oneProc none oneDescriptor, trivial, step_oneQueued⟩)).1 8⟩

/-- A file that is sent round comes back under a second descriptor. -/
theorem rights_delivered_one : ∃ got t fdp,
    unpExternalize oneProc 20 oneSent.1 oneSent.2.1 = some (got, t, fdp, none)
      ∧ fdp.fdOfiles (got.fdAt 0) = some 8 ∧ oneFile.fdOfiles (got.fdAt 0) = none := by
  obtain ⟨got, t, fdp, hrecv⟩ : ∃ got t fdp,
      unpExternalize oneProc 20 oneSent.1 oneSent.2.1 = some (got, t, fdp, none) := ⟨_, _, _, rfl⟩
  obtain ⟨fp, hfp, hget, hnew, -⟩ := (@rights_delivered oneProc oneProc none oneDescriptor _ _ _ _ _ _ _ _
    (by decide) rfl (by decide) hrecv).1 0 (by decide)
  exact ⟨got, t, fdp, hrecv, hget.trans hfp.symm, hnew⟩

/-- Received with a control buffer for less than one descriptor, the message
is gone and its reference stays counted. -/
theorem truncated_rights_leak : ¬ ∀ s, Runs step (fun _ _ => True) (St.start fun _ => {}) s →
    ∀ q, s.counts.fMsgcount q = s.inFlight.count q := by
  intro hall
  have hrecv : ∃ s, step oneQueued (.receive 0 oneProc 16) = some s
      ∧ s.counts.fMsgcount 8 = 1 ∧ s.queue = [] := by
    have htaken : taken oneSent.1 16 = [] := by decide
    refine ⟨⟨oneSent.2.1, []⟩, ?_, by decide, rfl⟩
    simp [step, oneQueued, unpExternalize, htaken, oneProc, allocRestart, allocSlots]
  obtain ⟨s, hs, hcount, hqueue⟩ := hrecv
  have hrun : Runs step (fun _ _ => True) (St.start fun _ => {}) s :=
    .tail (.single ⟨.send oneProc none oneDescriptor, trivial, step_oneQueued⟩)
      ⟨.receive 0 oneProc 16, trivial, hs⟩
  have := hall s hrun 8
  rw [hcount, St.inFlight, hqueue] at this
  exact absurd this (by decide)

end Obsd.Unp
